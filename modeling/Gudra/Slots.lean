import Gudra.Accesses
import Gudra.Lib.Interleave

/-! Every slot is in one place, armed slots are counted, and the scanner does not sleep on them. -/
namespace Gudra.Reactor

variable {T O R β : Type}

section Lists

variable {γ : Type} {l : List γ} {x y : γ} {i : ℕ} {g : γ → List β}

theorem flatMap_set (hi : l[i]? = some x) : ∃ others,
    (l.flatMap g).Perm (g x ++ others) ∧ ∀ y, ((l.set i y).flatMap g).Perm (g y ++ others) :=
  ⟨(l.eraseIdx i).flatMap g, (Interleave.perm_cons_eraseIdx hi).flatMap_right g,
    fun _ => (Interleave.perm_set hi).flatMap_right g⟩

theorem count_flatMap_set [DecidableEq β] (hi : l[i]? = some x) (s : β) :
    ((l.set i y).flatMap g).count s + (g x).count s = (l.flatMap g).count s + (g y).count s := by
  obtain ⟨others, hx, hy⟩ := flatMap_set (g := g) hi
  rw [hx.count_eq, (hy y).count_eq, List.count_append, List.count_append]
  omega

theorem length_flatMap_set (hi : l[i]? = some x) :
    ((l.set i y).flatMap g).length + (g x).length = (l.flatMap g).length + (g y).length := by
  obtain ⟨others, hx, hy⟩ := flatMap_set (g := g) hi
  rw [hx.length_eq, (hy y).length_eq, List.length_append, List.length_append]
  omega

end Lists

/-- The slot that a call to `register` holds. -/
def Place.slots : Place O → List ℕ
  | .reset slot | .write slot | .release slot | .payload slot | .count slot | .arm slot _ => [slot]
  | _ => []

/-- The slot that is counted and not yet in the bitmap. -/
def Place.counted : Place O → List ℕ
  | .arm slot _ => [slot]
  | _ => []

/-- The call is going to unpark the scanner. -/
def Place.unparks : Place O → Bool
  | .arm _ wasIdle => wasIdle
  | .unpark => true
  | _ => false

/-- The slots that are out of the bitmap and not yet free. -/
def Scanner.slots : Scanner R → List ℕ
  | .load _ pass | .flag _ _ pass | .judge _ _ _ pass | .query _ _ _ pass | .clear _ _ _ _ pass
  | .recycle pass => pass.retired
  | .take word _ bit _ pass => (word * 64 + bit) :: pass.retired
  | _ => []

/-- How many slots that are out of the bitmap are still counted. -/
def Scanner.uncounted : Scanner R → ℕ
  | .uncount pass => pass.retired.length
  | s => s.slots.length

/-- The bits that the scanner still has to look at are set, the one at hand apart. -/
def Scanner.Sees (t : SlotTable R) : Scanner R → Prop
  | .flag word bits _ => bits ≠ 0#64 ∧
    ∀ b, bits.getLsbD b = true → Bitmap.test t.active (word * 64 + b) = true
  | .take word bits _ _ _ =>
    ∀ b, bits.getLsbD b = true → Bitmap.test t.active (word * 64 + b) = true
  | .judge word bits bit _ | .query word bits bit _ | .clear word bits bit _ _ =>
    bit < 64 ∧ word * 64 + bit < t.numSlots ∧ Bitmap.test t.active (word * 64 + bit) = true ∧
      ∀ b, bits.getLsbD b = true → Bitmap.test t.active (word * 64 + b) = true ∧ b ≠ bit
  | _ => True

def Scanner.parks : Scanner R → Bool
  | .park => true
  | _ => false

structure Slots (t : SlotTable R) (scanner : Scanner R) (token : Bool) (places : List (Place O)) :
    Prop where
  /-- A slot is free, held by a call, in the bitmap or in the scanner's hands. -/
  placed : ∀ s, t.free.count s + (places.flatMap Place.slots).count s + t.armed.count s +
    scanner.slots.count s = (List.range t.numSlots).count s
  counted : t.nArmed = (places.flatMap Place.counted).length + t.armed.length + scanner.uncounted
  sees : scanner.Sees t
  parked : scanner.parks = true →
    t.nArmed = 0 ∨ token = true ∨ ∃ p ∈ places, p.unparks = true

namespace Slots

variable {t t' : SlotTable R} {s s' : Scanner R} {token : Bool} {places : List (Place O)}
  {p p' : Place O} {i slot : ℕ}

theorem unparks_set (hi : places[i]? = some p) (hp : p.unparks = true → p'.unparks = true)
    (h : ∃ p ∈ places, p.unparks = true) : ∃ p ∈ places.set i p', p.unparks = true := by
  obtain ⟨q, hq, hun⟩ := h
  obtain ⟨j, hj⟩ := List.mem_iff_getElem?.mp hq
  by_cases hij : i = j
  · subst hij
    obtain rfl := Option.some.inj (hi.symm.trans hj)
    obtain ⟨hlt, -⟩ := List.getElem?_eq_some_iff.mp hi
    exact ⟨p', List.mem_iff_getElem?.mpr ⟨i, List.getElem?_set_self hlt⟩, hp hun⟩
  · exact ⟨q, List.mem_iff_getElem?.mpr ⟨j, (List.getElem?_set_ne hij).trans hj⟩, hun⟩

/-- The table stays, and so does what the call holds. -/
theorem set (h : Slots t s token places) (hi : places[i]? = some p) (hslots : p'.slots = p.slots)
    (hcounted : p'.counted = p.counted) (hun : p.unparks = true → p'.unparks = true) :
    Slots t s token (places.set i p') where
  placed slot := by
    have hset := count_flatMap_set (y := p') (g := Place.slots) hi slot
    have hplaced := h.placed slot
    rw [hslots] at hset
    omega
  counted := by
    have hset := length_flatMap_set (y := p') (g := Place.counted) hi
    have hcount := h.counted
    rw [hcounted] at hset
    omega
  sees := h.sees
  parked hs := by
    rcases h.parked hs with hzero | htoken | hex
    · exact .inl hzero
    · exact .inr (.inl htoken)
    · exact .inr (.inr (unparks_set hi hun hex))

theorem set_plain (h : Slots t s token places) (hi : places[i]? = some p) (hslots : p.slots = [])
    (hun : p.unparks = false) (hslots' : p'.slots = []) : Slots t s token (places.set i p') := by
  refine h.set hi (hslots'.trans hslots.symm) ?_ fun hun' => absurd hun' (hun ▸ Bool.false_ne_true)
  have hcounted : ∀ q : Place O, q.slots = [] → q.counted = [] := by
    intro q hq
    cases q <;> first | rfl | cases hq
  rw [hcounted p hslots, hcounted p' hslots']

/-- Flags and payloads do not matter. -/
theorem congr (h : Slots t s token places) (hn : t'.numSlots = t.numSlots) (hfree : t'.free = t.free)
    (hactive : t'.active = t.active) (hcount : t'.nArmed = t.nArmed) : Slots t' s token places where
  placed slot := by
    have := h.placed slot
    simp only [SlotTable.armed, hn, hfree, hactive] at this ⊢
    exact this
  counted := by
    have := h.counted
    simp only [SlotTable.armed, hn, hactive, hcount] at this ⊢
    exact this
  sees := by
    have := h.sees
    cases s <;> simp only [Scanner.Sees, hn, hactive] at this ⊢ <;> exact this
  parked := by
    rw [hcount]
    exact h.parked

theorem lt_of_mem (h : Slots t s token places) (slot : ℕ)
    (hmem : 0 < t.free.count slot + (places.flatMap Place.slots).count slot + t.armed.count slot +
      s.slots.count slot) : slot < t.numSlots := by
  have hplaced := h.placed slot
  exact List.mem_range.mp (List.count_pos_iff.mp (by omega))

theorem claim (h : Slots t s token places) (hi : places[i]? = some .claim)
    (ht : t.claim = some (slot, t')) : Slots t' s token (places.set i (.reset slot)) := by
  unfold SlotTable.claim at ht
  split at ht
  · cases ht
  · rename_i head free hfree
    obtain ⟨rfl, rfl⟩ := Prod.mk.inj (Option.some.inj ht)
    refine ⟨fun x => ?_, ?_, h.sees, fun hs => ?_⟩
    · have hset := count_flatMap_set (y := Place.reset head) (g := Place.slots) hi x
      have hplaced := h.placed x
      rw [hfree, List.count_cons] at hplaced
      simp only [Place.slots, List.count_cons, List.count_nil, SlotTable.armed] at hset hplaced ⊢
      omega
    · have hset := length_flatMap_set (y := Place.reset head) (g := Place.counted) hi
      have hcount := h.counted
      simp only [Place.counted, List.length_nil, SlotTable.armed] at hset hcount ⊢
      omega
    · rcases h.parked hs with hzero | htoken | hex
      · exact .inl hzero
      · exact .inr (.inl htoken)
      · exact .inr (.inr (unparks_set hi (fun hun => absurd hun Bool.false_ne_true) hex))

theorem release (h : Slots t s token places) (hi : places[i]? = some (.release slot)) :
    Slots (t.release slot) s token (places.set i .host) := by
  refine ⟨fun x => ?_, ?_, h.sees, fun hs => ?_⟩
  · have hset := count_flatMap_set (y := Place.host) (g := Place.slots) hi x
    have hplaced := h.placed x
    simp only [Place.slots, List.count_cons, List.count_nil, SlotTable.armed,
      SlotTable.release] at hset hplaced ⊢
    omega
  · have hset := length_flatMap_set (y := Place.host) (g := Place.counted) hi
    have hcount := h.counted
    simp only [Place.counted, List.length_nil, SlotTable.armed, SlotTable.release] at hset hcount ⊢
    omega
  · rcases h.parked hs with hzero | htoken | hex
    · exact .inl hzero
    · exact .inr (.inl htoken)
    · exact .inr (.inr (unparks_set hi (fun hun => absurd hun Bool.false_ne_true) hex))

/-- The first to count an armed slot is going to unpark the scanner. -/
theorem count (h : Slots t s token places) (hi : places[i]? = some (.count slot)) :
    Slots t.count s token (places.set i (.arm slot t.isIdle)) := by
  obtain ⟨hlt, -⟩ := List.getElem?_eq_some_iff.mp hi
  refine ⟨fun x => ?_, ?_, h.sees, fun hs => ?_⟩
  · have hset := count_flatMap_set (y := Place.arm slot t.isIdle) (g := Place.slots) hi x
    have hplaced := h.placed x
    simp only [Place.slots, SlotTable.armed, SlotTable.count] at hset hplaced ⊢
    omega
  · have hset := length_flatMap_set (y := Place.arm slot t.isIdle) (g := Place.counted) hi
    have hcount := h.counted
    simp only [Place.counted, List.length_nil, List.length_cons, SlotTable.armed,
      SlotTable.count] at hset hcount ⊢
    omega
  · rcases h.parked hs with hzero | htoken | hex
    · refine .inr (.inr ⟨_, List.mem_iff_getElem?.mpr ⟨i, List.getElem?_set_self hlt⟩, ?_⟩)
      simp [Place.unparks, SlotTable.isIdle, hzero]
    · exact .inr (.inl htoken)
    · exact .inr (.inr (unparks_set hi (fun hun => absurd hun Bool.false_ne_true) hex))

theorem test_eq_false (h : Slots t s token places) (hi : places[i]? = some p)
    (hp : slot ∈ p.slots) : Bitmap.test t.active slot = false ∧ slot < t.numSlots := by
  have hmem : slot ∈ places.flatMap Place.slots :=
    List.mem_flatMap.mpr ⟨p, List.mem_of_getElem? hi, hp⟩
  have hpos := List.count_pos_iff.mpr hmem
  have hlt := h.lt_of_mem slot (by omega)
  have hplaced := h.placed slot
  rw [List.count_eq_one_of_mem List.nodup_range (List.mem_range.mpr hlt)] at hplaced
  refine ⟨Bool.eq_false_iff.mpr fun htest => ?_, hlt⟩
  have harmed : slot ∈ t.armed := Bitmap.mem_members.mpr ⟨hlt, htest⟩
  have := List.count_pos_iff.mpr harmed
  omega

/-- The slot that a registration holds joins the bitmap. -/
theorem armed_set_perm (h : Slots t s token places) (hi : places[i]? = some p)
    (hp : slot ∈ p.slots) : (t.setActive slot).armed.Perm (slot :: t.armed) := by
  obtain ⟨htest, hlt⟩ := h.test_eq_false hi hp
  exact Bitmap.members_set_perm (by decide) hlt htest

theorem sees_setActive (h : s.Sees t) : s.Sees (t.setActive slot) := by
  have hmono : ∀ j, Bitmap.test t.active j = true → Bitmap.test (t.setActive slot).active j = true := by
    intro j hj
    rw [SlotTable.setActive, Bitmap.test_set (by decide), hj]
    rfl
  cases s with
  | flag word bits => exact ⟨h.1, fun b hb => hmono _ (h.2 b hb)⟩
  | take word bits => exact fun b hb => hmono _ (h b hb)
  | judge word bits bit | query word bits bit | clear word bits bit =>
    exact ⟨h.1, h.2.1, hmono _ h.2.2.1, fun b hb => ⟨hmono _ (h.2.2.2 b hb).1, (h.2.2.2 b hb).2⟩⟩
  | _ => trivial

theorem arm {wasIdle : Bool} (h : Slots t s token places) (hi : places[i]? = some (.arm slot wasIdle))
    (hp' : p'.slots = []) (hcounted : p'.counted = []) (hun : wasIdle = true → p'.unparks = true) :
    Slots (t.setActive slot) s token (places.set i p') := by
  have hperm := h.armed_set_perm hi List.mem_cons_self
  refine ⟨fun x => ?_, ?_, sees_setActive h.sees, fun hs => ?_⟩
  · have hset := count_flatMap_set (y := p') (g := Place.slots) hi x
    have hplaced := h.placed x
    rw [hperm.count_eq, List.count_cons]
    rw [hp'] at hset
    simp only [Place.slots, List.count_cons, List.count_nil, SlotTable.setActive] at hset hplaced ⊢
    omega
  · have hset := length_flatMap_set (y := p') (g := Place.counted) hi
    have hcount := h.counted
    rw [hperm.length_eq, List.length_cons]
    rw [hcounted] at hset
    simp only [Place.counted, List.length_nil, List.length_cons, SlotTable.setActive] at hset hcount ⊢
    omega
  · rcases h.parked hs with hzero | htoken | hex
    · exact .inl hzero
    · exact .inr (.inl htoken)
    · exact .inr (.inr (unparks_set hi hun hex))

theorem unpark (h : Slots t s token places) (hi : places[i]? = some .unpark)
    (hp' : p'.slots = []) : Slots t s true (places.set i p') := by
  have htrue : Slots t s true places := ⟨h.placed, h.counted, h.sees, fun _ => .inr (.inl rfl)⟩
  have hcounted : p'.counted = [] := by cases p' <;> first | rfl | cases hp'
  refine ⟨?_, ?_, h.sees, fun _ => .inr (.inl rfl)⟩
  · intro x
    have hset := count_flatMap_set (y := p') (g := Place.slots) hi x
    have hplaced := h.placed x
    rw [hp'] at hset
    simp only [Place.slots, List.count_nil] at hset
    omega
  · have hset := length_flatMap_set (y := p') (g := Place.counted) hi
    have hcount := h.counted
    rw [hcounted] at hset
    simp only [Place.counted, List.length_nil] at hset
    omega

end Slots

namespace Scanner

variable {t : SlotTable R} {pass : Pass R} {word : ℕ} {bits : BitVec 64}

theorem finish_cases (pass : Pass R) : finish pass = .signal pass ∨ finish pass = .fault pass ∨
    finish pass = start ∨ finish pass = .gate := by
  unfold finish
  split
  · exact .inl rfl
  · exact .inr (.inl rfl)
  · split
    · exact .inr (.inr (.inl rfl))
    · exact .inr (.inr (.inr rfl))

theorem drain_cases (pass : Pass R) :
    drain pass = .signal pass ∨ drain pass = .fault pass ∨ drain pass = start := by
  unfold drain
  split
  · exact .inl rfl
  · exact .inr (.inl rfl)
  · exact .inr (.inr rfl)

end Scanner

/-- The scanner is not about to sleep, holds the slots `slots` and looks at set bits. -/
structure Scanner.Holds (t : SlotTable R) (slots : List ℕ) (s : Scanner R) : Prop where
  slots_eq : s.slots = slots
  uncounted_eq : s.uncounted = slots.length
  sees : s.Sees t
  awake : s.parks = false

namespace Scanner

variable {t : SlotTable R} {pass : Pass R} {word : ℕ} {bits : BitVec 64}

theorem holds_next (pass : Pass R)
    (h : ∀ b, bits.getLsbD b = true → Bitmap.test t.active (word * 64 + b) = true) :
    (next word bits pass).Holds t pass.retired := by
  obtain heq | ⟨heq, hne⟩ := next_cases word bits pass
  · rw [heq]
    exact ⟨rfl, rfl, trivial, rfl⟩
  · rw [heq]
    exact ⟨rfl, rfl, ⟨hne, h⟩, rfl⟩

theorem holds_finish (pass : Pass R) : (finish pass).Holds t [] := by
  obtain heq | heq | heq | heq := finish_cases pass <;> rw [heq] <;>
    exact ⟨rfl, rfl, trivial, rfl⟩

theorem holds_drain (pass : Pass R) : (drain pass).Holds t [] := by
  obtain heq | heq | heq := drain_cases pass <;> rw [heq] <;>
    exact ⟨rfl, rfl, trivial, rfl⟩

theorem holds_close : (close pass).Holds t pass.retired := by
  unfold close
  split
  · rename_i hnil
    rw [hnil]
    exact holds_finish pass
  · exact ⟨rfl, rfl, trivial, rfl⟩

end Scanner

namespace Slots

variable {t t' : SlotTable R} {s s' : Scanner R} {token token' : Bool} {places : List (Place O)}
  {pass : Pass R} {word bit : ℕ} {bits : BitVec 64} {landed : Bool}

theorem move (h : Slots t s token places) (hholds : s'.Holds t s.slots)
    (hcount : s.uncounted = s.slots.length) : Slots t s' token' places where
  placed x := by
    rw [hholds.slots_eq]
    exact h.placed x
  counted := by
    rw [hholds.uncounted_eq, ← hcount]
    exact h.counted
  sees := hholds.sees
  parked hs := absurd hs (hholds.awake ▸ Bool.false_ne_true)

/-- The slot that the scanner retires leaves the bitmap. -/
theorem armed_clear_perm (h : Slots t (.clear word bits bit landed pass) token places) :
    t.armed.Perm ((word * 64 + bit) :: (t.clearActive word bit).armed) := by
  obtain ⟨hbit, hlt, htest, -⟩ := h.sees
  exact Bitmap.members_clear_perm hbit hlt htest

theorem clear (h : Slots t (.clear word bits bit landed pass) token places) :
    Slots (t.clearActive word bit) (.take word bits bit landed pass) token places := by
  obtain ⟨hbit, hlt, htest, hbits⟩ := h.sees
  have hperm := h.armed_clear_perm
  refine ⟨fun x => ?_, ?_, ?_, fun hs => absurd hs Bool.false_ne_true⟩
  · have hplaced := h.placed x
    rw [hperm.count_eq, List.count_cons] at hplaced
    simp only [Scanner.slots, List.count_cons, SlotTable.clearActive] at hplaced ⊢
    omega
  · have hcount := h.counted
    rw [hperm.length_eq, List.length_cons] at hcount
    simp only [Scanner.uncounted, Scanner.slots, List.length_cons,
      SlotTable.clearActive] at hcount ⊢
    omega
  · intro b hb
    obtain ⟨hset, hne⟩ := hbits b hb
    rw [SlotTable.clearActive, Bitmap.test_clear hbit, hset]
    simp [hne]

theorem recycle (h : Slots t (.recycle pass) token places) :
    Slots (t.recycle pass.retired) (.uncount pass) token places := by
  refine ⟨fun x => ?_, h.counted, trivial, fun hs => absurd hs Bool.false_ne_true⟩
  have hplaced := h.placed x
  simp only [Scanner.slots, SlotTable.recycle, SlotTable.armed, List.count_append,
    List.count_nil] at hplaced ⊢
  omega

/-- `fetch_sub` finds enough. -/
theorem retired_le (h : Slots t (.uncount pass) token places) : pass.retired.length ≤ t.nArmed := by
  have hcount := h.counted
  simp only [Scanner.uncounted] at hcount
  omega

theorem uncount (h : Slots t (.uncount pass) token places) :
    Slots (t.uncount pass.retired.length) (.finish pass) token places := by
  have hholds := Scanner.holds_finish (t := t.uncount pass.retired.length) pass
  refine ⟨fun x => ?_, ?_, hholds.sees, fun hs => absurd hs (hholds.awake ▸ Bool.false_ne_true)⟩
  · rw [hholds.slots_eq]
    exact h.placed x
  · rw [hholds.uncounted_eq]
    have hcount := h.counted
    simp only [Scanner.uncounted, SlotTable.uncount, SlotTable.armed, List.length_nil] at hcount ⊢
    omega

end Slots

namespace Process

variable {c : Process T O} {clock : Clock}

def places (c : Process T O) : List (Place O) := c.futures.map DeviceFuture.place

def Placed (c : Process T O) : Prop := Slots c.table c.scanner c.token c.places

section Scan

variable (h : c.Placed) {word bit : ℕ} {bits : BitVec 64} {pass : Pass Registration}

include h

/-- A word of the bitmap is read, or the pass is over. -/
theorem placed_load (hs : c.scanner = .load word pass) : (c.scan clock).Placed := by
  have h' : Slots c.table c.scanner c.token c.places := h
  rw [hs] at h'
  simp only [scan, hs]
  split
  · split
    · exact h'.move ⟨rfl, rfl, trivial, rfl⟩ rfl
    · rename_i hne
      refine h'.move ⟨rfl, rfl, ⟨hne, fun b hb => ?_⟩, rfl⟩ rfl
      have hlt := BitVec.lt_of_getLsbD hb
      rw [Bitmap.test, Nat.mul_comm, Nat.mul_add_div (by decide), Nat.mul_add_mod,
        Nat.div_eq_of_lt hlt, Nat.mod_eq_of_lt hlt]
      exact hb
  · exact h'.move Scanner.holds_close rfl

/-- The flag of the lowest bit is read. -/
theorem placed_flag (hs : c.scanner = .flag word bits pass) : (c.scan clock).Placed := by
  have h' : Slots c.table c.scanner c.token c.places := h
  rw [hs] at h'
  obtain ⟨hne, hbits⟩ := h'.sees
  have hbit : bits.ctz.toNat < 64 := BitVec.ctz_lt_iff_ne_zero.mpr hne
  have htest := hbits _ (BitVec.getLsbD_true_ctz_of_ne_zero hne)
  have hrest : ∀ b, (Bitmap.rest bits).getLsbD b = true →
      Bitmap.test c.table.active (word * 64 + b) = true ∧ b ≠ bits.ctz.toNat := by
    intro b hb
    rw [Bitmap.getLsbD_rest hne, Bool.and_eq_true] at hb
    exact ⟨hbits b hb.1, of_decide_eq_true hb.2⟩
  simp only [scan, hs]
  split
  · split
    · exact h'.move ⟨rfl, rfl, ⟨hbit, ‹_›, htest, hrest⟩, rfl⟩ rfl
    · split
      · exact h'.move ⟨rfl, rfl, ⟨hbit, ‹_›, htest, hrest⟩, rfl⟩ rfl
      · exact h'.move (Scanner.holds_next _ fun b hb => (hrest b hb).1) rfl
  · exact h'.move ⟨rfl, rfl, trivial, rfl⟩ rfl

/-- The slot at hand is retired as dead, or left in the bitmap. -/
theorem placed_judge (r : Registration) (dead : Bool)
    (hs : c.scanner = .judge word bits bit pass ∨ c.scanner = .query word bits bit pass) :
    (c.judge word bits bit r dead pass).Placed := by
  have h' : Slots c.table c.scanner c.token c.places := h
  have hsees : Scanner.Sees c.table (.judge word bits bit pass) := by
    have hsees := h'.sees
    rcases hs with hs | hs <;> rw [hs] at hsees <;> exact hsees
  have hslots : c.scanner.slots = pass.retired ∧ c.scanner.uncounted = pass.retired.length := by
    rcases hs with hs | hs <;> rw [hs] <;> exact ⟨rfl, rfl⟩
  obtain ⟨hbit, hlt, htest, hrest⟩ := hsees
  have hretired := (memoize_fields r dead pass).2.2
  have hcount : c.scanner.uncounted = c.scanner.slots.length := by rw [hslots.1, hslots.2]
  unfold judge
  split
  · refine h'.move ⟨hretired.trans hslots.1.symm, ?_, ⟨hbit, hlt, htest, hrest⟩, rfl⟩ hcount
    exact congrArg List.length (hretired.trans hslots.1.symm)
  · have hholds := Scanner.holds_next (memoize r dead pass) fun b hb => (hrest b hb).1
    rw [hretired, ← hslots.1] at hholds
    exact h'.move hholds hcount

/-- The payload of the slot at hand is taken. -/
theorem placed_take {landed : Bool} (hs : c.scanner = .take word bits bit landed pass) :
    (c.scan clock).Placed := by
  have h' : Slots c.table c.scanner c.token c.places := h
  rw [hs] at h'
  have hsees := h'.sees
  have hmove : ∀ pass' : Pass Registration, pass'.retired = (word * 64 + bit) :: pass.retired →
      Slots (c.table.takePayload (word * 64 + bit)) (.next word bits pass') c.token c.places := by
    intro pass' heq
    have hholds := Scanner.holds_next pass' hsees
    rw [heq] at hholds
    exact (h'.move hholds rfl).congr rfl rfl rfl rfl
  simp only [scan, hs]
  refine hmove _ ?_
  split
  · rfl
  · split <;> rfl

/-- A registration is woken, and the scanner goes on with the next. -/
theorem placed_woken (r : Registration) (n : ℕ) (pass' : Pass Registration)
    (hs : c.scanner = .wake pass ∨ c.scanner = .fault pass) :
    ({ ((c.wake r.waker).record (.handled r.waker)).setScanner (.drain pass') with
      idlePasses := n } : Process T O).Placed := by
  have h' : Slots c.table c.scanner c.token c.places := h
  have hslots : c.scanner.slots = [] ∧ c.scanner.uncounted = 0 := by
    rcases hs with hs | hs <;> rw [hs] <;> exact ⟨rfl, rfl⟩
  have hmove : Slots c.table (.drain pass') c.token c.places :=
    h'.move (hslots.1 ▸ Scanner.holds_drain pass') (by rw [hslots.1, hslots.2]; rfl)
  obtain heq | ⟨w, -, heq⟩ := wake_cases (c := c) (i := r.waker) <;> rw [heq] <;> exact hmove

/-- The scanner counts an idle pass, or goes to sleep. -/
theorem placed_gate (hs : c.scanner = .gate) : (c.scan clock).Placed := by
  have h' : Slots c.table c.scanner c.token c.places := h
  rw [hs] at h'
  simp only [scan, hs]
  split
  · rename_i hidle
    refine ⟨h'.placed, h'.counted, trivial, fun _ => .inl ?_⟩
    exact eq_of_beq hidle
  · split
    · exact h'.move ⟨rfl, rfl, trivial, rfl⟩ rfl
    · split
      · exact h'.move ⟨rfl, rfl, trivial, rfl⟩ rfl
      · exact h'.move ⟨rfl, rfl, trivial, rfl⟩ rfl

theorem placed_scan : (c.scan clock).Placed := by
  have h' : Slots c.table c.scanner c.token c.places := h
  cases hs : c.scanner with
  | load word pass => exact placed_load h hs
  | flag word bits pass => exact placed_flag h hs
  | judge word bits bit pass =>
    rw [hs] at h'
    obtain ⟨hbit, hlt, htest, hrest⟩ := h'.sees
    simp only [scan, hs]
    split
    · exact h'.move (Scanner.holds_next _ fun b hb => (hrest b hb).1) rfl
    · split
      · exact placed_judge h _ _ (.inl hs)
      · exact h'.move ⟨rfl, rfl, ⟨hbit, hlt, htest, hrest⟩, rfl⟩ rfl
  | query word bits bit pass =>
    rw [hs] at h'
    obtain ⟨-, -, -, hrest⟩ := h'.sees
    simp only [scan, hs]
    split
    · exact h'.move (Scanner.holds_next _ fun b hb => (hrest b hb).1) rfl
    · exact placed_judge h _ _ (.inr hs)
  | clear word bits bit landed pass =>
    rw [hs] at h'
    simp only [scan, hs]
    exact h'.clear
  | take word bits bit landed pass => exact placed_take h hs
  | recycle pass =>
    rw [hs] at h'
    simp only [scan, hs]
    exact h'.recycle
  | uncount pass =>
    rw [hs] at h'
    simp only [scan, hs]
    exact h'.uncount
  | signal pass =>
    rw [hs] at h'
    simp only [scan, hs]
    split
    · exact h'.move (Scanner.holds_drain _) rfl
    · exact h'.move ⟨rfl, rfl, trivial, rfl⟩ rfl
  | wake pass =>
    rw [hs] at h'
    simp only [scan, hs]
    split
    · exact h'.move (Scanner.holds_drain _) rfl
    · exact placed_woken h _ _ _ (.inl hs)
  | fault pass =>
    rw [hs] at h'
    simp only [scan, hs]
    split
    · exact h'.move (Scanner.holds_drain _) rfl
    · exact placed_woken h _ c.idlePasses _ (.inr hs)
  | gate => exact placed_gate h hs
  | park =>
    rw [hs] at h'
    simp only [scan, hs]
    split
    · exact h'.move ⟨rfl, rfl, trivial, rfl⟩ rfl
    · exact h

end Scan

theorem places_get {f : DeviceFuture T O} {i : ℕ} (hi : c.futures[i]? = some f) :
    c.places[i]? = some f.place := by
  rw [places, List.getElem?_map, hi]
  rfl

/-- One future changes, and the shared state as given. -/
theorem Placed.of {c' : Process T O} {f' : DeviceFuture T O} {i : ℕ}
    (hfutures : c'.futures = c.futures.set i f')
    (h : Slots c'.table c'.scanner c'.token (c.places.set i f'.place)) : c'.Placed := by
  rw [Placed, places, hfutures, List.map_set]
  exact h

section Ticks

variable {f : DeviceFuture T O} {i : ℕ}

theorem placed_deliver (h : c.Placed) (hi : c.futures[i]? = some f) (hslots : f.place.slots = [])
    (hun : f.place.unparks = false) : ((c.release i f).deliver i f).Placed := by
  have hset : Slots c.table c.scanner c.token (c.places.set i .rest) :=
    h.set_plain (places_get hi) hslots hun rfl
  unfold deliver
  obtain heq | ⟨_, -, heq⟩ := release_cases (c := c) (i := i) (f := f) <;> rw [heq] <;> dsimp only <;>
    split <;> exact .of rfl hset

theorem placed_ticks {c' : Process T O} (h : c.Placed) (hi : c.futures[i]? = some f)
    (ht : Ticks c i f c') : c'.Placed := by
  have hp := places_get hi
  -- Most accesses leave the table alone, before and after them no slot is held.
  have hplain : f.place.slots = [] → f.place.unparks = false → ∀ p' : Place O, p'.slots = [] →
      Slots c.table c.scanner c.token (c.places.set i p') :=
    fun hslots hun p' hslots' => h.set_plain hp hslots hun hslots'
  cases ht with
  | wait => exact h
  | abort => exact h
  | register hplace | reregister hplace | missed hplace | ask hplace | reject _ hplace
  | execute _ _ hplace | executeSome _ _ hplace | executeNone _ _ hplace | drained _ _ hplace
  | react hplace | suspend hplace | bind hplace | block hplace | host hplace =>
    rw [hplace] at hplain
    exact .of rfl (hplain rfl rfl _ rfl)
  | prove hplace | observe hplace =>
    rcases hplace with hplace | hplace <;>
      exact placed_deliver h hi (by rw [hplace]; rfl) (by rw [hplace]; rfl)
  | refuse _ hplace =>
    rcases hplace with hplace | hplace | hplace | hplace <;> rw [hplace] at hplain <;>
      exact .of rfl (hplain rfl rfl _ rfl)
  | unclaimed hplace | busy hplace =>
    rcases hplace with hplace | hplace <;> rw [hplace] at hplain <;>
      exact .of rfl (hplain rfl rfl _ rfl)
  | claim slot table hplace htable =>
    rw [hplace] at hp
    exact .of rfl (h.claim hp htable)
  | reset slot hplace =>
    rw [hplace] at hp
    have hset : Slots c.table c.scanner c.token (c.places.set i (.write slot)) :=
      h.set hp rfl rfl id
    exact .of rfl (hset.congr rfl rfl rfl rfl)
  | unwritten slot hplace | write slot hplace =>
    rw [hplace] at hp
    exact .of rfl (h.set hp rfl rfl id)
  | release slot hplace =>
    rw [hplace] at hp
    exact .of rfl (h.release hp)
  | payload slot hplace =>
    rw [hplace] at hp
    have hset : Slots c.table c.scanner c.token (c.places.set i (.count slot)) :=
      h.set hp rfl rfl id
    exact .of rfl (hset.congr rfl rfl rfl rfl)
  | count slot hplace =>
    rw [hplace] at hp
    exact .of rfl (h.count hp)
  | armFirst slot hplace =>
    rw [hplace] at hp
    exact .of rfl (h.arm hp rfl rfl id)
  | arm slot hplace =>
    rw [hplace] at hp
    exact .of rfl (h.arm hp rfl rfl id)
  | unpark hplace =>
    rw [hplace] at hp
    exact .of rfl (h.unpark hp rfl)
  | free hplace =>
    rcases hplace with hplace | hplace <;> rw [hplace] at hplain <;>
      obtain heq | ⟨_, -, heq⟩ := release_cases (c := c) (i := i) (f := f) <;>
      rw [Process.free, heq] <;> exact .of rfl (hplain rfl rfl _ rfl)

theorem placed_calls {c' : Process T O} (h : c.Placed) (hi : c.futures[i]? = some f)
    (hc : Calls c i f c') : c'.Placed := by
  have hp := places_get hi
  have hplain : f.place = .rest → ∀ p' : Place O, p'.slots = [] →
      Slots c.table c.scanner c.token (c.places.set i p') := by
    intro hplace p' hslots'
    exact h.set_plain hp (by rw [hplace]; rfl) (by rw [hplace]; rfl) hslots'
  cases hc with
  | wait => exact h
  | abort => exact h
  | error _ _ hplace | locked _ _ hplace | begin _ hplace | again _ hplace | bind hplace
  | discard hplace => exact .of rfl (hplain hplace _ rfl)
  | missing _ hplace | late _ hplace =>
    refine .of rfl (hplain hplace _ ?_)
    rw [hplace]
    rfl

end Ticks

theorem placed_create {f : DeviceFuture T O} (h : c.Placed) (hf : f.place = .rest) :
    (c.create f).Placed := by
  have hplaces : (c.create f).places = c.places ++ [.rest] := by
    rw [places, create, List.map_append, List.map_singleton, hf]
    rfl
  rw [Placed, hplaces]
  refine ⟨fun x => ?_, ?_, Slots.sees h, fun hs => ?_⟩
  · have hslots : (c.places ++ [Place.rest]).flatMap Place.slots = c.places.flatMap Place.slots := by
      rw [List.flatMap_append, List.flatMap_singleton]
      exact List.append_nil _
    rw [hslots]
    exact Slots.placed h x
  · have hcounted : (c.places ++ [Place.rest]).flatMap Place.counted = c.places.flatMap Place.counted := by
      rw [List.flatMap_append, List.flatMap_singleton]
      exact List.append_nil _
    rw [hcounted]
    exact Slots.counted h
  · refine (Slots.parked h hs).imp_right (Or.imp_right ?_)
    rintro ⟨p, hmem, hun⟩
    exact ⟨p, List.mem_append_left _ hmem, hun⟩

theorem placed_device (h : c.Placed) (s : ℕ) : (c.device s).Placed := by
  have h' : Slots c.table c.scanner c.token c.places := h
  unfold device
  split
  · exact h
  · exact h'.congr rfl rfl rfl rfl
  · exact h
  · rename_i i queue _
    obtain heq | ⟨w, -, heq⟩ := wake_cases (c := c.setQueue s queue) (i := i) <;> rw [heq] <;> exact h
  · exact h

theorem placed_step (h : c.Placed) (x : Input T O) : (c.step x).Placed := by
  unfold step
  split
  · exact h
  · cases x with
    | new | scheduled | failed => exact placed_create h rfl
    | poll i w locked =>
      cases hi : c.futures[i]? with
      | none => simpa only [poll, hi] using h
      | some f => exact placed_calls h hi (calls_poll hi w locked)
    | drop i =>
      cases hi : c.futures[i]? with
      | none => simpa only [drop, hi] using h
      | some f => exact placed_calls h hi (calls_drop hi)
    | tick i a =>
      cases hi : c.futures[i]? with
      | none => simpa only [tick, hi] using h
      | some f => exact placed_ticks h hi (ticks hi)
    | device s => exact placed_device h s
    | fault | capture => exact h
    | scan clock => exact placed_scan h

theorem armed_new (numSlots : ℕ) : (SlotTable.new numSlots : SlotTable R).armed = [] := by
  refine List.eq_nil_iff_forall_not_mem.mpr fun slot hslot => ?_
  have htest := (Bitmap.mem_members.mp hslot).2
  simp [Bitmap.test, SlotTable.new] at htest

theorem placed_init (numSlots : ℕ) : (init numSlots : Process T O).Placed where
  placed x := by
    simp only [init, places, List.map_nil, List.flatMap_nil, armed_new, List.count_nil]
    rfl
  counted := by
    simp only [init, places, List.map_nil, List.flatMap_nil, armed_new, List.length_nil]
    rfl
  sees := trivial
  parked _ := .inl rfl

end Process
end Gudra.Reactor
