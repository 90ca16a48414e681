import Gudra.Handoff

/-! What the flags, the payloads and the scanner say is true, whatever the calls do. What they say
about the device is so while no capture takes away what a future submits. -/
namespace Gudra.Reactor.Process

variable {T O : Type} {c c' : Process T O} {f f' : DeviceFuture T O} {r : Registration} {i slot : ℕ}

structure Posted (c : Process T O) : Prop where
  mail : c.Calm → Mail c.Watches c.Fresh c.table.flags c.streams fun i => .worked i ∈ c.log
  stored : ∀ slot r, c.Call (slot ∈ ·.stored) r → c.table.payload slot = some r
  kept : ∀ slot ∈ c.table.armed ++ c.scanner.taken,
    ∃ r, c.table.payload slot = some r ∧ c.Registered r

structure Judged (c : Process T O) : Prop where
  judged : ∀ slot landed, c.scanner.judged = some (slot, landed) → c.Verdict slot landed
  remembers : c.Remembers c.scanner.pass
  woken : ∀ r ∈ c.scanner.pass.woken, c.Registered r ∧ (c.Calm → .worked r.waker ∈ c.log)
  dead : ∀ r ∈ c.scanner.pass.dead, c.Registered r ∧ (c.streams r.stream).Broken
  complete : ∀ i, (c.callbacks i).complete = true → c.Calm → .worked i ∈ c.log

theorem Registered.mono (hcalls : ∀ r, c.Call (fun _ => True) r → c'.Call (fun _ => True) r)
    (hlog : ∀ e ∈ c.log, e ∈ c'.log) (h : c.Registered r) : c'.Registered r :=
  ⟨hcalls r h.1, hlog _ h.2⟩

/-- The scanner's findings stay true while the slot that it has judged is left alone. -/
theorem Judged.congr (h : c.Judged) (hscanner : c'.scanner = c.scanner)
    (hcalls : ∀ r, c.Call (fun _ => True) r → c'.Call (fun _ => True) r)
    (hlog : ∀ e ∈ c.log, e ∈ c'.log) (hcalm : c'.Calm → c.Calm)
    (hbroken : ∀ s, (c.streams s).Broken → (c'.streams s).Broken)
    (hcomplete : ∀ i, (c'.callbacks i).complete = true →
      (c.callbacks i).complete = true ∨ (c'.Calm → .worked i ∈ c'.log))
    (hjudged : ∀ slot landed, c.scanner.judged = some (slot, landed) →
      (c.table.flags slot = 1 → c'.table.flags slot = 1) ∧
        c'.table.payload slot = c.table.payload slot) : c'.Judged where
  judged slot landed hj := by
    rw [hscanner] at hj
    obtain ⟨hflag, hpayload⟩ := hjudged slot landed hj
    have hverdict := h.judged slot landed hj
    cases landed with
    | true => exact hflag hverdict
    | false => exact fun r hr => hbroken _ (hverdict r (hpayload ▸ hr))
  remembers := by
    rw [hscanner]
    exact fun x hx hdead => hbroken _ (h.remembers x hx hdead)
  woken r hr := by
    rw [hscanner] at hr
    exact ⟨(h.woken r hr).1.mono hcalls hlog, fun hc => hlog _ ((h.woken r hr).2 (hcalm hc))⟩
  dead r hr := by
    rw [hscanner] at hr
    exact ⟨(h.dead r hr).1.mono hcalls hlog, hbroken _ (h.dead r hr).2⟩
  complete i hi := (hcomplete i hi).elim (fun hi hc => hlog _ (h.complete i hi (hcalm hc))) id

/-- No slot changes hands, and no flag is touched. -/
structure SameHands (c c' : Process T O) : Prop where
  asked : ∀ slot r, c'.Call (slot ∈ ·.asked) r ↔ c.Call (slot ∈ ·.asked) r
  stored : ∀ slot r, c'.Call (slot ∈ ·.stored) r → c.Call (slot ∈ ·.stored) r
  fresh : ∀ slot r, c'.Call (slot ∈ ·.fresh) r → c.Call (slot ∈ ·.fresh) r
  calls : ∀ r, c.Call (fun _ => True) r → c'.Call (fun _ => True) r
  table : c.table.Same c'.table
  scanner : c'.scanner.taken = c.scanner.taken
  streams : SameWrites c.streams c'.streams
  calm : c'.Calm → c.Calm
  log : ∀ e ∈ c.log, e ∈ c'.log

theorem armed_of_same {R : Type} {t t' : SlotTable R} (h : t.Same t') :
    t'.armed = t.armed := by
  rw [SlotTable.armed, SlotTable.armed, h.active, h.numSlots]

theorem SameHands.watches (hands : SameHands c c') (slot : ℕ) (r : Registration) :
    c'.Watches slot r ↔ c.Watches slot r := by
  rw [Watches, Watches, hands.asked, armed_of_same hands.table, hands.scanner,
    hands.table.payload]

theorem Posted.congr (h : c.Posted) (hands : SameHands c c') : c'.Posted where
  mail hcalm := by
    rw [hands.table.flags]
    exact (h.mail (hands.calm hcalm)).congr hands.watches
      (fun slot ⟨r, hr⟩ => ⟨r, hands.fresh slot r hr⟩) hands.streams fun i hi => hands.log _ hi
  stored slot r hr := by
    rw [hands.table.payload]
    exact h.stored slot r (hands.stored slot r hr)
  kept slot hslot := by
    rw [armed_of_same hands.table, hands.scanner] at hslot
    obtain ⟨r, hpayload, hregistered⟩ := h.kept slot hslot
    refine ⟨r, ?_, hregistered.mono hands.calls hands.log⟩
    rw [hands.table.payload]
    exact hpayload

/-- The streams get other operations than writes. -/
theorem sameWrites_submit (c : Process T O) (s : ℕ) {op : StreamOp} (hop : ∀ slot i, op ≠ .write slot i) :
    SameWrites c.streams (c.submit s op).streams := by
  have hsame : ∀ r, ((c.submit s op).streams r).fault = (c.streams r).fault ∧
      ((c.submit s op).streams r).captured = (c.streams r).captured ∧
      ∀ slot i, ((c.submit s op).streams r).queue.count (.write slot i) =
        (c.streams r).queue.count (.write slot i) := by
    intro r
    by_cases hrs : r = s
    · subst hrs
      rw [submit_self]
      refine ⟨Stream.fault_submit _ op, Stream.captured_submit _ op, fun slot i => ?_⟩
      rcases Stream.queue_submit (c.streams r) op with ⟨heq, -⟩ | heq <;> rw [heq]
      rw [List.count_append, List.count_singleton, if_neg fun heq => hop slot i (eq_of_beq heq),
        Nat.add_zero]
    · rw [submit_of_ne op hrs]
      exact ⟨rfl, rfl, fun _ _ => rfl⟩
  exact ⟨fun r hr => (hsame r).1 ▸ hr, fun r hr => (hsame r).2.1.trans hr, fun r => (hsame r).2.2⟩

section Set

variable (hi : c.futures[i]? = some f) (hfutures : c'.futures = c.futures.set i f')
  (hcontext : f'.executionContext = f.executionContext)

include hi hfutures hcontext

theorem calls_set (hcall : c.Call (fun _ => True) r) : c'.Call (fun _ => True) r :=
  (call_set_iff hi hfutures hcontext Iff.rfl).mpr hcall

/-- One future moves between places that hold no slot that was asked for. -/
theorem sameHands_set (hasked : f.place.asked = []) (hasked' : f'.place.asked = [])
    (hfresh' : f'.place.fresh = []) (htable : c.table.Same c'.table)
    (hscanner : c'.scanner = c.scanner) (hstreams : SameWrites c.streams c'.streams)
    (hlog : ∀ e ∈ c.log, e ∈ c'.log) : SameHands c c' where
  asked slot r := call_set_iff hi hfutures hcontext (by rw [hasked, hasked'])
  stored slot r hr := by
    rcases (call_set hi hfutures hcontext).mp hr with ⟨-, hstored⟩ | ⟨-, hr⟩
    · have hmem := Place.mem_asked_of_stored hstored
      rw [hasked'] at hmem
      exact absurd hmem List.not_mem_nil
    · exact hr
  fresh slot r hr := by
    rcases (call_set hi hfutures hcontext).mp hr with ⟨-, hfresh⟩ | ⟨-, hr⟩
    · rw [hfresh'] at hfresh
      exact absurd hfresh List.not_mem_nil
    · exact hr
  calls r := calls_set hi hfutures hcontext
  table := htable
  scanner := congrArg Scanner.taken hscanner
  streams := hstreams
  calm := Calm.of_set hi hfutures hcontext hstreams.captured
  log := hlog

end Set

/-- The slot that the scanner has judged is in its hands or in the bitmap. -/
theorem Placed.judged_mem {landed : Bool} (h : c.Placed)
    (hjudged : c.scanner.judged = some (slot, landed)) :
    slot ∈ c.table.armed ∨ slot ∈ c.scanner.slots := by
  have hsees := Slots.sees h
  cases hs : c.scanner with
  | clear word bits bit landed' pass =>
    rw [hs] at hjudged hsees
    obtain ⟨rfl, -⟩ := Prod.mk.inj (Option.some.inj hjudged)
    exact .inl (Bitmap.mem_members.mpr ⟨hsees.2.1, hsees.2.2.1⟩)
  | take word bits bit landed' pass =>
    rw [hs] at hjudged
    obtain ⟨rfl, -⟩ := Prod.mk.inj (Option.some.inj hjudged)
    exact .inr List.mem_cons_self
  | load | flag | judge | query | recycle | uncount | signal | wake | fault | gate | park =>
    rw [hs] at hjudged
    cases hjudged

theorem Placed.judged_ne {slot' : ℕ} {landed : Bool} (h : c.Placed)
    (hcall : c.Call (slot ∈ ·.slots) r) (hjudged : c.scanner.judged = some (slot', landed)) :
    slot' ≠ slot := by
  rintro rfl
  obtain ⟨harmed, hslots⟩ := h.apart hcall
  exact (h.judged_mem hjudged).elim harmed hslots

end Gudra.Reactor.Process
