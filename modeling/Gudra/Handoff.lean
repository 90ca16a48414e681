import Gudra.InFlight
import Gudra.Slots

/-! A slot's flag speaks for the future that holds the slot. -/
namespace Gudra.Reactor

variable {T O : Type}

/-- The slot whose flag the stream was asked to set. -/
def Place.asked : Place O → List ℕ
  | .payload slot | .count slot | .arm slot _ => [slot]
  | _ => []

/-- The slot that has its payload already. -/
def Place.stored : Place O → List ℕ
  | .count slot | .arm slot _ => [slot]
  | _ => []

/-- The slot whose flag was reset and not yet asked for. -/
def Place.fresh : Place O → List ℕ
  | .write slot => [slot]
  | _ => []

theorem Place.mem_slots_of_asked {p : Place O} {slot : ℕ} (h : slot ∈ p.asked) : slot ∈ p.slots := by
  cases p <;> first | exact h | exact absurd h List.not_mem_nil

theorem Place.mem_asked_of_stored {p : Place O} {slot : ℕ} (h : slot ∈ p.stored) :
    slot ∈ p.asked := by
  cases p <;> first | exact h | exact absurd h List.not_mem_nil

theorem Place.mem_slots_of_fresh {p : Place O} {slot : ℕ} (h : slot ∈ p.fresh) : slot ∈ p.slots := by
  cases p <;> first | exact h | exact absurd h List.not_mem_nil

theorem Place.not_asked_of_fresh {p : Place O} {slot : ℕ} (h : slot ∈ p.fresh) : p.asked = [] := by
  cases p <;> first | rfl | exact absurd h List.not_mem_nil

/-- What a stream still writes, to flags that `watches` and `fresh` describe. -/
structure Mail (watches : ℕ → Registration → Prop) (fresh : ℕ → Prop) (flags : ℕ → ℕ)
    (streams : ℕ → Stream) (worked : ℕ → Prop) : Prop where
  /-- A write that is going to happen is for the registration that watches the slot. -/
  pending : ∀ s slot i, ¬ (streams s).Broken → .write slot i ∈ (streams s).queue →
    flags slot = 0 ∧ watches slot ⟨i, s⟩
  once : ∀ s slot i, ¬ (streams s).Broken → (streams s).queue.count (.write slot i) ≤ 1
  fresh : ∀ slot, fresh slot → flags slot = 0
  landed : ∀ slot r, watches slot r → flags slot = 1 → worked r.waker

/-- The streams write to the same flags, or to fewer because of a fault. -/
structure SameWrites (streams streams' : ℕ → Stream) : Prop where
  fault : ∀ s, (streams s).fault.isSome → (streams' s).fault.isSome
  captured : ∀ s, (streams s).captured = true → (streams' s).captured = true
  count : ∀ s slot i, (streams' s).queue.count (.write slot i) = (streams s).queue.count (.write slot i)

namespace SameWrites

variable {streams streams' : ℕ → Stream}

theorem refl (streams : ℕ → Stream) : SameWrites streams streams :=
  ⟨fun _ => id, fun _ => id, fun _ _ _ => rfl⟩

theorem broken (h : SameWrites streams streams') {s : ℕ} (hs : (streams s).Broken) :
    (streams' s).Broken := hs.imp (h.fault s) (h.captured s)

theorem mem (h : SameWrites streams streams') {s slot i : ℕ}
    (hmem : .write slot i ∈ (streams' s).queue) : .write slot i ∈ (streams s).queue := by
  rw [← List.count_pos_iff] at hmem ⊢
  exact h.count s slot i ▸ hmem

end SameWrites

namespace Mail

variable {watches watches' : ℕ → Registration → Prop} {fresh fresh' : ℕ → Prop}
  {flags flags' : ℕ → ℕ} {streams streams' : ℕ → Stream} {worked worked' : ℕ → Prop}

theorem congr (h : Mail watches fresh flags streams worked)
    (hwatches : ∀ slot r, watches' slot r ↔ watches slot r) (hfresh : ∀ slot, fresh' slot → fresh slot)
    (hstreams : SameWrites streams streams') (hworked : ∀ i, worked i → worked' i) :
    Mail watches' fresh' flags streams' worked' where
  pending s slot i hf hmem := by
    obtain ⟨hflag, hwatch⟩ := h.pending s slot i (mt hstreams.broken hf) (hstreams.mem hmem)
    exact ⟨hflag, (hwatches slot _).mpr hwatch⟩
  once s slot i hf := by
    rw [hstreams.count]
    exact h.once s slot i (mt hstreams.broken hf)
  fresh slot hslot := h.fresh slot (hfresh slot hslot)
  landed slot r hwatch hflag := hworked _ (h.landed slot r ((hwatches slot r).mp hwatch) hflag)

/-- A claimed slot's flag is cleared. -/
theorem reset (h : Mail watches fresh flags streams worked) (slot : ℕ)
    (hfresh : ∀ slot', fresh' slot' → slot' = slot ∨ fresh slot') :
    Mail watches fresh' (Function.update flags slot 0) streams worked where
  pending s slot' i hf hmem := by
    obtain ⟨hflag, hwatch⟩ := h.pending s slot' i hf hmem
    refine ⟨?_, hwatch⟩
    by_cases heq : slot' = slot
    · rw [heq, Function.update_self]
    · rw [Function.update_of_ne heq, hflag]
  once := h.once
  fresh slot' hslot := by
    by_cases heq : slot' = slot
    · rw [heq, Function.update_self]
    · rw [Function.update_of_ne heq]
      exact h.fresh slot' ((hfresh slot' hslot).resolve_left heq)
  landed slot' r hwatch hflag := by
    by_cases heq : slot' = slot
    · rw [heq, Function.update_self] at hflag
      cases hflag
    · rw [Function.update_of_ne heq] at hflag
      exact h.landed slot' r hwatch hflag

/-- The stream is asked to set the flag of a slot that nobody watches. -/
theorem ask (h : Mail watches fresh flags streams worked) {slot i s : ℕ} (hslot : fresh slot)
    (hnew : ∀ r, ¬ watches slot r)
    (hwatches : ∀ slot' r, watches' slot' r ↔ slot' = slot ∧ r = ⟨i, s⟩ ∨ watches slot' r)
    (hfresh : ∀ slot', fresh' slot' → fresh slot')
    (hself : streams' s = { streams s with queue := (streams s).queue ++ [.write slot i] })
    (hother : ∀ r, r ≠ s → streams' r = streams r) : Mail watches' fresh' flags streams' worked where
  pending r slot' j hf hmem := by
    have hcases : slot' = slot ∧ j = i ∧ r = s ∨
        ¬ (streams r).Broken ∧ .write slot' j ∈ (streams r).queue := by
      by_cases hr : r = s
      · subst hr
        rw [hself] at hf hmem
        rcases List.mem_append.mp hmem with hmem | hmem
        · exact .inr ⟨hf, hmem⟩
        · obtain ⟨rfl, rfl⟩ := StreamOp.write.inj (List.mem_singleton.mp hmem)
          exact .inl ⟨rfl, rfl, rfl⟩
      · rw [hother r hr] at hf hmem
        exact .inr ⟨hf, hmem⟩
    rcases hcases with ⟨rfl, rfl, rfl⟩ | ⟨hf, hmem⟩
    · exact ⟨h.fresh _ hslot, (hwatches _ _).mpr (.inl ⟨rfl, rfl⟩)⟩
    · obtain ⟨hflag, hwatch⟩ := h.pending r slot' j hf hmem
      exact ⟨hflag, (hwatches _ _).mpr (.inr hwatch)⟩
  once r slot' j hf := by
    by_cases hr : r = s
    · subst hr
      rw [hself] at hf ⊢
      have honce := h.once r slot' j hf
      rw [List.count_append]
      by_cases hop : (.write slot' j : StreamOp) = .write slot i
      · obtain ⟨rfl, rfl⟩ := StreamOp.write.inj hop
        have hzero : (streams r).queue.count (.write slot' j) = 0 :=
          List.count_eq_zero.mpr fun hmem => hnew _ (h.pending r slot' j hf hmem).2
        rw [hzero, List.count_singleton_self]
      · rw [List.count_singleton, if_neg (fun heq => hop (eq_of_beq heq).symm)]
        exact honce
    · rw [hother r hr] at hf ⊢
      exact h.once r slot' j hf
  fresh slot' hslot' := h.fresh slot' (hfresh slot' hslot')
  landed slot' r hwatch hflag := by
    rcases (hwatches slot' r).mp hwatch with ⟨rfl, -⟩ | hwatch
    · rw [h.fresh _ hslot] at hflag
      cases hflag
    · exact h.landed slot' r hwatch hflag

/-- The device sets a flag. -/
theorem land (h : Mail watches fresh flags streams worked) {slot i s : ℕ} {queue : List StreamOp}
    (hf : ¬ (streams s).Broken) (hq : (streams s).queue = .write slot i :: queue)
    (hunique : ∀ r r', watches slot r → watches slot r' → r = r')
    (hfresh : ∀ r, watches slot r → ¬ fresh slot) (hworked : worked i) :
    Mail watches fresh (Function.update flags slot 1)
      (Function.update streams s { streams s with queue }) worked := by
  have hwatch := (h.pending s slot i hf (hq ▸ List.mem_cons_self)).2
  have hcount : ∀ r slot' j, (Function.update streams s { streams s with queue } r).queue.count
      (.write slot' j) ≤ (streams r).queue.count (.write slot' j) := by
    intro r slot' j
    by_cases hr : r = s
    · subst hr
      rw [Function.update_self, hq]
      exact List.count_le_count_cons
    · rw [Function.update_of_ne hr]
  have hbroken : ∀ r, (Function.update streams s { streams s with queue } r).Broken ↔
      (streams r).Broken := by
    intro r
    by_cases hr : r = s
    · subst hr
      rw [Function.update_self]
      exact Iff.rfl
    · rw [Function.update_of_ne hr]
  have hmem : ∀ r slot' j, .write slot' j ∈
      (Function.update streams s { streams s with queue } r).queue →
      .write slot' j ∈ (streams r).queue := by
    intro r slot' j hmem
    rw [← List.count_pos_iff] at hmem ⊢
    exact Nat.lt_of_lt_of_le hmem (hcount r slot' j)
  refine ⟨?_, ?_, ?_, ?_⟩
  · intro r slot' j hf' hmem'
    rw [hbroken] at hf'
    obtain ⟨hflag, hwatch'⟩ := h.pending r slot' j hf' (hmem r slot' j hmem')
    refine ⟨?_, hwatch'⟩
    rw [Function.update_of_ne ?_, hflag]
    rintro rfl
    -- The slot's only write was at the head.
    obtain ⟨rfl, rfl⟩ := Registration.mk.inj (hunique _ _ hwatch hwatch')
    have honce := h.once s slot' i hf
    rw [Function.update_self] at hmem'
    rw [hq, List.count_cons_self] at honce
    have hpos : 0 < queue.count (.write slot' i) := List.count_pos_iff.mpr hmem'
    omega
  · intro r slot' j hf'
    rw [hbroken] at hf'
    exact (hcount r slot' j).trans (h.once r slot' j hf')
  · intro slot' hslot'
    rw [Function.update_of_ne ?_]
    · exact h.fresh slot' hslot'
    · rintro rfl
      exact hfresh _ hwatch hslot'
  · intro slot' r hwatch' hflag
    by_cases heq : slot' = slot
    · subst heq
      rw [hunique _ _ hwatch' hwatch]
      exact hworked
    · rw [Function.update_of_ne heq] at hflag
      exact h.landed slot' r hwatch' hflag

/-- A slot that nothing is going to write to is given up. -/
theorem retire (h : Mail watches fresh flags streams worked) (slot : ℕ)
    (hslot : flags slot = 1 ∨ ∀ r, watches slot r → (streams r.stream).Broken)
    (hwatches : ∀ slot' r, watches' slot' r ↔ watches slot' r ∧ slot' ≠ slot) :
    Mail watches' fresh flags streams worked where
  pending s slot' i hf hmem := by
    obtain ⟨hflag, hwatch⟩ := h.pending s slot' i hf hmem
    refine ⟨hflag, (hwatches _ _).mpr ⟨hwatch, ?_⟩⟩
    rintro rfl
    rcases hslot with hslot | hslot
    · rw [hslot] at hflag
      cases hflag
    · exact hf (hslot _ hwatch)
  once := h.once
  fresh := h.fresh
  landed slot' r hwatch hflag := h.landed slot' r ((hwatches _ _).mp hwatch).1 hflag

end Mail

theorem count_flatMap_two {γ β : Type} [DecidableEq β] {l : List γ} {g : γ → List β} {x y : γ}
    {i j : ℕ} {s : β} (hi : l[i]? = some x) (hj : l[j]? = some y) (hij : i ≠ j) (hx : s ∈ g x)
    (hy : s ∈ g y) : 2 ≤ (l.flatMap g).count s := by
  have hperm := (Interleave.perm_cons_eraseIdx hi).flatMap_right g
  have hmem : s ∈ (l.eraseIdx i).flatMap g := by
    refine List.mem_flatMap.mpr ⟨y, ?_, hy⟩
    exact List.mem_eraseIdx_iff_getElem?.mpr ⟨j, Ne.symm hij, hj⟩
  rw [hperm.count_eq, List.flatMap_cons, List.count_append]
  have hpos := List.count_pos_iff.mpr hx
  have hpos' := List.count_pos_iff.mpr hmem
  omega

theorem Scanner.mem_slots_of_taken {R : Type} {s : Scanner R} {slot : ℕ} (h : slot ∈ s.taken) :
    slot ∈ s.slots := by
  cases s <;> first
    | exact absurd h List.not_mem_nil
    | exact List.mem_cons.mpr (.inl (by simpa [Scanner.taken] using h))

namespace Process

variable {c c' : Process T O} {f f' : DeviceFuture T O} {P : Place O → Prop} {r r' : Registration}
  {i slot : ℕ}

/-- The future of a registration is in a call at such a place. -/
def Call (c : Process T O) (P : Place O → Prop) (r : Registration) : Prop :=
  ∃ f, c.futures[r.waker]? = some f ∧ f.stream = r.stream ∧ P f.place

/-- The registration that the slot's flag is for. -/
def Watches (c : Process T O) (slot : ℕ) (r : Registration) : Prop :=
  c.Call (slot ∈ ·.asked) r ∨
    slot ∈ c.table.armed ++ c.scanner.taken ∧ c.table.payload slot = some r

def Fresh (c : Process T O) (slot : ℕ) : Prop := ∃ r, c.Call (slot ∈ ·.fresh) r

/-- A registration that `register` has handed over. -/
def Registered (c : Process T O) (r : Registration) : Prop :=
  c.Call (fun _ => True) r ∧ .armed r.waker ∈ c.log

theorem Call.mono {Q : Place O → Prop} (h : c.Call P r) (hPQ : ∀ p, P p → Q p) : c.Call Q r := by
  obtain ⟨f, hi, hs, hp⟩ := h
  exact ⟨f, hi, hs, hPQ _ hp⟩

theorem call_congr (hfutures : c'.futures = c.futures) : c'.Call P r ↔ c.Call P r := by
  rw [Call, Call, hfutures]

theorem call_set (hi : c.futures[i]? = some f) (hfutures : c'.futures = c.futures.set i f')
    (hcontext : f'.executionContext = f.executionContext) :
    c'.Call P r ↔ r = ⟨i, f.stream⟩ ∧ P f'.place ∨ r.waker ≠ i ∧ c.Call P r := by
  obtain ⟨hlt, -⟩ := List.getElem?_eq_some_iff.mp hi
  have hstream : f'.stream = f.stream := congrArg (Option.getD · 0) hcontext
  rw [Call, hfutures]
  constructor
  · rintro ⟨g, hg, hs, hp⟩
    rcases getElem?_set_cases hi hg with ⟨hwaker, rfl⟩ | ⟨hne, hg⟩
    · left
      refine ⟨?_, hp⟩
      rw [← hwaker, ← hstream, hs]
    · exact .inr ⟨hne, g, hg, hs, hp⟩
  · rintro (⟨rfl, hp⟩ | ⟨hne, g, hg, hs, hp⟩)
    · exact ⟨f', List.getElem?_set_self hlt, hstream, hp⟩
    · exact ⟨g, (List.getElem?_set_ne (Ne.symm hne)).trans hg, hs, hp⟩

theorem call_self (hi : c.futures[i]? = some f) (hp : P f.place) : c.Call P ⟨i, f.stream⟩ :=
  ⟨f, hi, rfl, hp⟩

theorem Call.self (hi : c.futures[i]? = some f) (h : c.Call P r) (hr : r.waker = i) :
    r = ⟨i, f.stream⟩ ∧ P f.place := by
  obtain ⟨g, hg, hs, hp⟩ := h
  subst hr
  obtain rfl := Option.some.inj (hi.symm.trans hg)
  exact ⟨by rw [hs], hp⟩

/-- A call goes on to a place that is the same in this respect. -/
theorem call_set_iff (hi : c.futures[i]? = some f) (hfutures : c'.futures = c.futures.set i f')
    (hcontext : f'.executionContext = f.executionContext) (hP : P f'.place ↔ P f.place) :
    c'.Call P r ↔ c.Call P r := by
  rw [call_set hi hfutures hcontext]
  constructor
  · rintro (⟨rfl, hp⟩ | ⟨-, h⟩)
    · exact call_self hi (hP.mp hp)
    · exact h
  · intro h
    by_cases hr : r.waker = i
    · obtain ⟨heq, hp⟩ := h.self hi hr
      exact .inl ⟨heq, hP.mpr hp⟩
    · exact .inr ⟨hr, h⟩

theorem Placed.count_le (h : c.Placed) (slot : ℕ) :
    (c.places.flatMap Place.slots).count slot + c.table.armed.count slot +
      c.scanner.slots.count slot ≤ 1 := by
  have hplaced := Slots.placed h slot
  have hle := List.nodup_iff_count_le_one.mp (List.nodup_range (n := c.table.numSlots)) slot
  omega

theorem Call.count_pos (h : c.Call (slot ∈ ·.slots) r) :
    0 < (c.places.flatMap Place.slots).count slot := by
  obtain ⟨f, hi, -, hp⟩ := h
  exact List.count_pos_iff.mpr
    (List.mem_flatMap.mpr ⟨f.place, List.mem_of_getElem? (places_get hi), hp⟩)

theorem Placed.apart (h : c.Placed) (hcall : c.Call (slot ∈ ·.slots) r) :
    slot ∉ c.table.armed ∧ slot ∉ c.scanner.slots := by
  have hle := h.count_le slot
  have hpos := hcall.count_pos
  constructor <;> intro hmem <;> have := List.count_pos_iff.mpr hmem <;> omega

/-- What the scanner is taking is out of the bitmap. -/
theorem Placed.not_armed {word bit : ℕ} {bits : BitVec 64} {landed : Bool}
    {pass : Pass Registration} (h : c.Placed) (hs : c.scanner = .take word bits bit landed pass) :
    word * 64 + bit ∉ c.table.armed := by
  intro hmem
  have hle := h.count_le (word * 64 + bit)
  have hpos := List.count_pos_iff.mpr hmem
  have hpos' : 0 < c.scanner.slots.count (word * 64 + bit) := by
    rw [hs]
    exact List.count_pos_iff.mpr List.mem_cons_self
  omega

theorem Placed.not_kept (h : c.Placed) (hcall : c.Call (slot ∈ ·.slots) r) :
    slot ∉ c.table.armed ++ c.scanner.taken := by
  obtain ⟨harmed, hslots⟩ := h.apart hcall
  rw [List.mem_append]
  exact fun hmem => hmem.elim harmed fun htaken => hslots (Scanner.mem_slots_of_taken htaken)

theorem Placed.call_unique (h : c.Placed) (hcall : c.Call (slot ∈ ·.slots) r)
    (hcall' : c.Call (slot ∈ ·.slots) r') : r = r' := by
  have hle := h.count_le slot
  obtain ⟨f, hi, hs, hp⟩ := hcall
  obtain ⟨f', hi', hs', hp'⟩ := hcall'
  by_cases heq : r.waker = r'.waker
  · rw [heq] at hi
    obtain rfl := Option.some.inj (hi.symm.trans hi')
    obtain ⟨i, s⟩ := r
    obtain ⟨j, s'⟩ := r'
    cases heq
    cases hs.symm.trans hs'
    rfl
  · have htwo := count_flatMap_two (g := Place.slots) (places_get hi) (places_get hi') heq hp hp'
    omega

theorem Placed.watch_unique (h : c.Placed) (hwatch : c.Watches slot r)
    (hwatch' : c.Watches slot r') : r = r' := by
  have hslots : ∀ {r}, c.Call (slot ∈ ·.asked) r → c.Call (slot ∈ ·.slots) r :=
    fun hcall => hcall.mono fun _ => Place.mem_slots_of_asked
  rcases hwatch with hcall | ⟨hkept, hpayload⟩
  · rcases hwatch' with hcall' | ⟨hkept, -⟩
    · exact h.call_unique (hslots hcall) (hslots hcall')
    · exact absurd hkept (h.not_kept (hslots hcall))
  · rcases hwatch' with hcall' | ⟨-, hpayload'⟩
    · exact absurd hkept (h.not_kept (hslots hcall'))
    · exact Option.some.inj (hpayload.symm.trans hpayload')

theorem Placed.fresh_unwatched (h : c.Placed) (hfresh : c.Fresh slot) (hwatch : c.Watches slot r) :
    False := by
  obtain ⟨r', hcall⟩ := hfresh
  have hslots : c.Call (slot ∈ ·.slots) r' := hcall.mono fun _ => Place.mem_slots_of_fresh
  rcases hwatch with hasked | ⟨hkept, -⟩
  · obtain rfl := h.call_unique (hasked.mono fun _ => Place.mem_slots_of_asked) hslots
    obtain ⟨f, hi, -, hp⟩ := hcall
    have hmem := (hasked.self hi rfl).2
    rw [Place.not_asked_of_fresh hp] at hmem
    exact List.not_mem_nil hmem
  · exact h.not_kept hslots hkept

end Process
end Gudra.Reactor
