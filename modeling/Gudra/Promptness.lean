import Gudra.Completions
import Gudra.Lib.Response

/-! A landed callback is delivered after a bounded number of the scanner's accesses. -/
namespace Gudra.Reactor

variable {R T O : Type}

/-- What the pass has found: a signal is two accesses, a wake is one. -/
def Pass.cost (pass : Pass R) : ℕ := 2 * pass.woken.length + 2 * pass.dead.length

namespace Scanner

variable {words word : ℕ} {bits : BitVec 64} {pass : Pass R}

/-- How many accesses there are at most until the next pass, over a bitmap of `words`. -/
def work (words : ℕ) : Scanner R → ℕ
  | .load word pass => (words - word) * 450 + pass.cost + 5
  | .flag word bits pass => (words - (word + 1)) * 450 + 7 * Bitmap.ones bits + pass.cost + 6
  | .take word bits _ _ pass => (words - (word + 1)) * 450 + 7 * Bitmap.ones bits + pass.cost + 9
  | .clear word bits _ _ pass => (words - (word + 1)) * 450 + 7 * Bitmap.ones bits + pass.cost + 10
  | .query word bits _ pass => (words - (word + 1)) * 450 + 7 * Bitmap.ones bits + pass.cost + 11
  | .judge word bits _ pass => (words - (word + 1)) * 450 + 7 * Bitmap.ones bits + pass.cost + 12
  | .recycle pass => pass.cost + 4
  | .uncount pass => pass.cost + 3
  | .signal pass => 2 * max pass.woken.length 1 + 2 * pass.dead.length + 2
  | .wake pass => 2 * max pass.woken.length 1 + 2 * pass.dead.length + 1
  | .fault pass => 2 * pass.woken.length + 2 * max pass.dead.length 1 + 1
  | .gate => 1
  | .park => 0

/-- A whole pass. -/
def round (words : ℕ) : ℕ := words * 450 + 5

/-- The scanner has seen the whole bitmap. -/
def Closes (words : ℕ) : Scanner R → Prop
  | .load word _ => words ≤ word
  | .flag .. | .judge .. | .query .. | .clear .. | .take .. => False
  | _ => True

/-- The next access begins another pass, or there is less to do. -/
def Advances (words : ℕ) (s s' : Scanner R) : Prop :=
  s'.work words < s.work words ∨ (∃ probing, s' = .load 0 (.start probing)) ∧ s.Closes words

theorem work_start (words : ℕ) (probing : Bool) :
    (.load 0 (.start probing) : Scanner R).work words = round words := by
  rw [work, round, Pass.cost, Nat.sub_zero]
  exact congrArg (· + 5) (Nat.add_zero _)

theorem work_next : (next word bits pass).work words <
    (words - (word + 1)) * 450 + 7 * Bitmap.ones bits + pass.cost + 7 := by
  unfold next
  split
  · rw [work]
    omega
  · rw [work]
    omega

theorem work_finish (words : ℕ) (pass : Pass R) : (finish pass).work words < pass.cost + 3 ∨
    ∃ probing, finish pass = .load 0 (.start probing) := by
  unfold finish
  split
  · rename_i hwoken
    left
    rw [work, Pass.cost, hwoken, List.length_cons]
    omega
  · rename_i hwoken hdead
    left
    rw [work, Pass.cost, hwoken, hdead, List.length_cons, List.length_nil]
    omega
  · split
    · exact .inr ⟨false, rfl⟩
    · left
      rw [work]
      omega

/-- After a signal or a wake the next one is at hand, or another pass. -/
theorem work_drain (words : ℕ) (pass : Pass R) {woken dead : List R} (hwoken : pass.woken = woken)
    (hdead : pass.dead = dead) :
    (drain pass).work words ≤ 2 * woken.length + 2 * dead.length + (if woken = [] then 1 else 2) ∧
      (woken = [] → dead ≠ []) ∨ drain pass = start := by
  subst hwoken hdead
  unfold drain
  split
  · rename_i hwoken
    left
    rw [work, hwoken, List.length_cons, if_neg (List.cons_ne_nil _ _)]
    exact ⟨by omega, fun h => absurd h (List.cons_ne_nil _ _)⟩
  · rename_i hwoken hdead
    left
    rw [work, hwoken, hdead, List.length_cons, List.length_nil, if_pos rfl]
    exact ⟨by omega, fun _ => List.cons_ne_nil _ _⟩
  · exact .inr rfl

theorem advances_drain {s : Scanner R} {woken dead : List R} (hwoken : pass.woken = woken)
    (hdead : pass.dead = dead) (hs : s.Closes words) (hless : (woken = [] → dead ≠ []) →
      2 * woken.length + 2 * dead.length + (if woken = [] then 1 else 2) < s.work words) :
    s.Advances words (drain pass) := by
  rcases work_drain words pass hwoken hdead with ⟨hle, hne⟩ | hstart
  · exact .inl (hle.trans_lt (hless hne))
  · exact .inr ⟨⟨false, hstart⟩, hs⟩

theorem advances_close (h : words ≤ word) :
    (Scanner.load word pass).Advances words (close pass) := by
  unfold close
  split
  · rcases work_finish words pass with hlt | hstart
    · left
      rw [work]
      omega
    · exact .inr ⟨hstart, h⟩
  · left
    rw [work, work]
    omega

/-- Bit `slot` is among those of this pass that are still to come. -/
def Coming (slot word : ℕ) (bits : BitVec 64) : Prop :=
  word < slot / 64 ∨ word = slot / 64 ∧ bits.getLsbD (slot % 64) = true

/-- The scanner comes to `slot` in this pass. -/
def Ahead (slot : ℕ) : Scanner R → Prop
  | .load word _ => word ≤ slot / 64
  | .flag word bits _ | .judge word bits _ _ | .query word bits _ _ | .take word bits _ _ _ =>
    Coming slot word bits
  | .clear word bits bit _ _ => slot = word * 64 + bit ∨ Coming slot word bits
  | _ => False

theorem Ahead.not_closes {s : Scanner R} {slot : ℕ} (h : s.Ahead slot) (hlt : slot / 64 < words) :
    ¬ s.Closes words := by
  intro hcloses
  cases s with
  | load word pass => exact absurd (Nat.lt_of_le_of_lt h hlt) (Nat.not_lt.mpr hcloses)
  | flag | judge | query | clear | take => exact hcloses
  | recycle | uncount | signal | wake | fault | gate | park => exact h

theorem ahead_next {slot : ℕ} (h : Coming slot word bits) : (next word bits pass).Ahead slot := by
  unfold next
  split
  · rename_i hzero
    rcases h with hlt | ⟨-, hbit⟩
    · exact hlt
    · rw [hzero] at hbit
      simp at hbit
  · exact h

/-- Another slot of the word does not matter. -/
theorem Coming.rest {slot : ℕ} (h : Coming slot word bits) (hbits : bits ≠ 0#64)
    (hne : word * 64 + bits.ctz.toNat ≠ slot) : Coming slot word (Bitmap.rest bits) := by
  refine h.imp_right fun ⟨hword, hbit⟩ => ⟨hword, ?_⟩
  rw [Bitmap.getLsbD_rest hbits, hbit, Bool.true_and, decide_eq_true_iff]
  omega

end Scanner

namespace Process

variable {c c' : Process T O} {f : DeviceFuture T O} {r : Registration} {i slot : ℕ}

section Advances

variable {word bit : ℕ} {bits : BitVec 64} {pass : Pass Registration} {clock : Clock}

theorem advances_load (hs : c.scanner = .load word pass) :
    (Scanner.load word pass).Advances c.table.numWords (c.scan clock).scanner := by
  simp only [scan, hs]
  split
  · rename_i hword
    -- One word less; its 64 bits cost at most 7 each.
    obtain ⟨k, hk⟩ := Nat.exists_eq_add_of_le' (Nat.sub_pos_of_lt hword)
    have hk' : c.table.numWords - (word + 1) = k := by omega
    split
    · left
      simp only [setScanner, Scanner.work, hk, hk']
      omega
    · left
      have hle := Bitmap.ones_le (c.table.active word)
      simp only [setScanner, Scanner.work, hk, hk', Pass.cost]
      omega
  · exact Scanner.advances_close (by omega)

theorem advances_flag (hp : c.Placed) (hs : c.scanner = .flag word bits pass) :
    (Scanner.flag word bits pass).Advances c.table.numWords (c.scan clock).scanner := by
  have hsees := Slots.sees hp
  rw [hs] at hsees
  have hlt := Bitmap.ones_rest hsees.1
  left
  simp only [scan, hs]
  split
  · split
    · simp only [setScanner, Scanner.work]
      omega
    · split
      · simp only [setScanner, Scanner.work]
        omega
      · refine Scanner.work_next.trans_le ?_
        simp only [Scanner.work]
        omega
  · simp only [setScanner, Scanner.work]
    omega

/-- The scanner has an answer of `is_dead`. -/
theorem work_judge (r : Registration) (dead : Bool) :
    (c.judge word bits bit r dead pass).scanner.work c.table.numWords <
      (Scanner.query word bits bit pass).work c.table.numWords := by
  obtain ⟨hwoken, hdead, -⟩ := memoize_fields r dead pass
  have hcost : (memoize r dead pass).cost = pass.cost := by rw [Pass.cost, Pass.cost, hwoken, hdead]
  unfold judge
  split
  · simp only [setScanner, Scanner.work, hcost]
    omega
  · refine Scanner.work_next.trans_le ?_
    simp only [Scanner.work, hcost]
    omega

theorem advances_judge (hs : c.scanner = .judge word bits bit pass) :
    (Scanner.judge word bits bit pass).Advances c.table.numWords (c.scan clock).scanner := by
  have hless : (Scanner.query word bits bit pass).work c.table.numWords <
      (Scanner.judge word bits bit pass).work c.table.numWords := by
    simp only [Scanner.work]
    omega
  left
  simp only [scan, hs]
  split
  · refine Scanner.work_next.trans_le ?_
    simp only [Scanner.work]
    omega
  · split
    · exact (work_judge _ _).trans hless
    · exact hless

theorem advances_query (hs : c.scanner = .query word bits bit pass) :
    (Scanner.query word bits bit pass).Advances c.table.numWords (c.scan clock).scanner := by
  left
  simp only [scan, hs]
  split
  · refine Scanner.work_next.trans_le ?_
    simp only [Scanner.work]
    omega
  · exact work_judge _ _

theorem advances_take {landed : Bool} (hs : c.scanner = .take word bits bit landed pass) :
    (Scanner.take word bits bit landed pass).Advances c.table.numWords (c.scan clock).scanner := by
  left
  simp only [scan, hs]
  refine Scanner.work_next.trans_le ?_
  simp only [Scanner.work, Pass.cost]
  cases c.table.payload (word * 64 + bit) <;> cases landed <;> simp <;> omega

theorem advances_signal (hs : c.scanner = .signal pass) :
    (Scanner.signal pass).Advances c.table.numWords (c.scan clock).scanner := by
  simp only [scan, hs]
  split
  · refine Scanner.advances_drain ‹pass.woken = []› rfl trivial fun _ => ?_
    rw [if_pos rfl, Scanner.work, List.length_nil]
    omega
  · left
    simp only [setScanner, Scanner.work]
    omega

theorem advances_wake (hs : c.scanner = .wake pass) :
    (Scanner.wake pass).Advances c.table.numWords (c.scan clock).scanner := by
  simp only [scan, hs]
  split
  · refine Scanner.advances_drain ‹pass.woken = []› rfl trivial fun hne => ?_
    have hpos := List.length_pos_iff.mpr (hne rfl)
    rw [if_pos rfl, Scanner.work, List.length_nil]
    omega
  · rename_i r woken hwoken
    refine Scanner.advances_drain rfl rfl trivial fun _ => ?_
    rw [Scanner.work, hwoken, List.length_cons]
    dsimp only
    split
    · omega
    · have hpos := List.length_pos_iff.mpr ‹woken ≠ []›
      omega

theorem advances_fault (hs : c.scanner = .fault pass) :
    (Scanner.fault pass).Advances c.table.numWords (c.scan clock).scanner := by
  simp only [scan, hs]
  split
  · rename_i hdead
    refine Scanner.advances_drain rfl hdead trivial fun hne => ?_
    rw [if_neg fun hwoken => hne hwoken rfl, Scanner.work, hdead, List.length_nil]
    omega
  · rename_i r dead hdead
    refine Scanner.advances_drain rfl rfl trivial fun _ => ?_
    rw [Scanner.work, hdead, List.length_cons]
    dsimp only
    split
    · have hzero := List.length_eq_zero_iff.mpr ‹pass.woken = []›
      omega
    · omega

theorem advances_gate (hs : c.scanner = .gate) :
    (Scanner.gate : Scanner Registration).Advances c.table.numWords (c.scan clock).scanner := by
  simp only [scan, hs]
  split
  · exact .inl Nat.zero_lt_one
  · split
    · exact .inr ⟨⟨false, rfl⟩, trivial⟩
    · split
      · exact .inr ⟨⟨true, rfl⟩, trivial⟩
      · exact .inr ⟨⟨false, rfl⟩, trivial⟩

/-- An access that is made brings the end of the pass nearer. -/
theorem advances_scan (hp : c.Placed) (hawake : c.asleep clock = false) :
    c.scanner.Advances c.table.numWords (c.scan clock).scanner := by
  cases hs : c.scanner with
  | load word pass => exact advances_load hs
  | flag word bits pass => exact advances_flag hp hs
  | judge word bits bit pass => exact advances_judge hs
  | query word bits bit pass => exact advances_query hs
  | clear word bits bit landed pass =>
    left
    simp only [scan, hs, setScanner, Scanner.work]
    omega
  | take word bits bit landed pass => exact advances_take hs
  | recycle pass =>
    left
    simp only [scan, hs, setScanner, Scanner.work]
    omega
  | uncount pass =>
    simp only [scan, hs]
    rcases Scanner.work_finish c.table.numWords pass with hlt | hstart
    · exact .inl hlt
    · exact .inr ⟨hstart, trivial⟩
  | signal pass => exact advances_signal hs
  | wake pass => exact advances_wake hs
  | fault pass => exact advances_fault hs
  | gate => exact advances_gate hs
  | park =>
    simp only [asleep, hs] at hawake
    simp only [scan, hs]
    split
    · exact .inr ⟨⟨false, rfl⟩, trivial⟩
    · rename_i hstay
      simp_all

end Advances

/-- The slot is in the bitmap with its flag set, and `r` is registered for it. -/
structure Landed (c : Process T O) (slot : ℕ) (r : Registration) : Prop where
  armed : slot ∈ c.table.armed
  flag : c.table.flags slot = 1
  payload : c.table.payload slot = some r

/-- The scanner has taken `r` out of the bitmap. -/
def InHand (c : Process T O) (r : Registration) : Prop :=
  (∃ slot ∈ c.scanner.taken, c.table.payload slot = some r) ∨
    r ∈ c.scanner.pass.woken ++ c.scanner.pass.dead

theorem ahead_judge {word bit : ℕ} {bits : BitVec 64} {pass : Pass Registration} (r : Registration)
    (dead : Bool) (h : Scanner.Coming slot word bits) :
    (c.judge word bits bit r dead pass).scanner.Ahead slot := by
  unfold judge
  split
  · exact .inr h
  · exact Scanner.ahead_next h

theorem ahead_scan (hp : c.Placed) (h : c.Landed slot r) (ha : c.scanner.Ahead slot)
    (clock : Clock) : (c.scan clock).scanner.Ahead slot ∨ slot ∈ (c.scan clock).scanner.taken := by
  have hsees := Slots.sees hp
  obtain ⟨hlt, htest⟩ := Bitmap.mem_members.mp h.armed
  simp only [scan]
  cases hs : c.scanner with
  | load word pass =>
    rw [hs] at ha
    have hword : word < c.table.numWords := by
      have hle : word ≤ slot / 64 := ha
      rw [SlotTable.numWords]
      omega
    simp only [hword, if_true]
    left
    split
    · rename_i hzero
      refine Nat.lt_of_le_of_ne ha fun heq => ?_
      rw [Bitmap.test, ← heq, hzero] at htest
      simp at htest
    · rcases Nat.lt_or_eq_of_le ha with hlt | heq
      · exact .inl hlt
      · exact .inr ⟨heq, heq ▸ htest⟩
  | flag word bits pass =>
    rw [hs] at ha hsees
    have hbits := hsees.1
    have htrue := BitVec.getLsbD_true_ctz_of_ne_zero hbits
    have hctz : bits.ctz.toNat < 64 := BitVec.lt_of_getLsbD htrue
    have hfound := (Bitmap.mem_members.mpr ⟨hlt, htest⟩)
    have hle : word * 64 + bits.ctz.toNat ≤ slot := by
      rcases ha with hword | ⟨hword, hbit⟩
      · omega
      · have hlow : bits.ctz.toNat ≤ slot % 64 := by
          by_contra hlow
          rw [BitVec.getLsbD_false_of_lt_ctz (Nat.lt_of_not_le hlow)] at hbit
          cases hbit
        omega
    have hnum : word * 64 + bits.ctz.toNat < c.table.numSlots := Nat.lt_of_le_of_lt hle hlt
    simp only [hnum, if_true]
    left
    by_cases heq : word * 64 + bits.ctz.toNat = slot
    · rw [if_pos (heq ▸ h.flag)]
      exact .inl heq.symm
    · have hrest : Scanner.Coming slot word (Bitmap.rest bits) := Scanner.Coming.rest ha hbits heq
      split
      · exact .inr hrest
      · split
        · exact hrest
        · exact Scanner.ahead_next hrest
  | judge word bits bit pass =>
    rw [hs] at ha
    left
    simp only
    split
    · exact Scanner.ahead_next ha
    · split
      · exact ahead_judge _ _ ha
      · exact ha
  | query word bits bit pass =>
    rw [hs] at ha
    left
    simp only
    split
    · exact Scanner.ahead_next ha
    · exact ahead_judge _ _ ha
  | clear word bits bit landed pass =>
    rw [hs] at ha
    rcases ha with rfl | ha
    · exact .inr (List.mem_singleton_self _)
    · exact .inl ha
  | take word bits bit landed pass =>
    rw [hs] at ha
    exact .inl (Scanner.ahead_next ha)
  | recycle | uncount | signal | wake | fault | gate | park =>
    rw [hs] at ha
    exact ha.elim

/-- What has landed stays in the bitmap until the scanner takes it. -/
theorem landed_scans (hp : c.Placed) (h : c.Landed slot r) (hscan : Scans c c') :
    c'.Landed slot r ∨ c'.InHand r := by
  cases hscan with
  | move table s' n token ht =>
    exact .inl ⟨(armed_of_same ht).symm ▸ h.armed, ht.flags.symm ▸ h.flag,
      ht.payload.symm ▸ h.payload⟩
  | clear word bits bit landed pass hs =>
    have hslots : Slots c.table c.scanner c.token c.places := hp
    rw [hs] at hslots
    by_cases heq : slot = word * 64 + bit
    · exact .inr (.inl ⟨slot, heq ▸ List.mem_singleton_self _, h.payload⟩)
    · have hmem := (Slots.armed_clear_perm hslots).mem_iff.mp h.armed
      exact .inl ⟨(List.mem_cons.mp hmem).resolve_left heq, h.flag, h.payload⟩
  | take word bits bit landed pass hs =>
    have hne : slot ≠ word * 64 + bit := by
      rintro rfl
      exact hp.not_armed hs h.armed
    exact .inl ⟨h.armed, h.flag, (Function.update_of_ne hne _ _).trans h.payload⟩
  | signal => exact .inl ⟨h.armed, h.flag, h.payload⟩
  | wake | fault =>
    exact .inl ⟨wake_table.symm ▸ h.armed, wake_table.symm ▸ h.flag, wake_table.symm ▸ h.payload⟩

/-- What the scanner has taken it keeps until it is delivered. -/
theorem inHand_scans (h : c.InHand r) (hscan : Scans c c') :
    c'.InHand r ∨ .handled r.waker ∈ c'.log := by
  cases hscan with
  | move table s' n token _ htaken _ hwoken hdead =>
    left
    rcases h with ⟨slot, hslot, -⟩ | h
    · rw [htaken.1] at hslot
      cases hslot
    · right
      show r ∈ s'.pass.woken ++ s'.pass.dead
      rwa [hwoken, hdead]
  | clear word bits bit landed pass hs =>
    rw [InHand, hs] at h
    rcases h with ⟨slot, hslot, -⟩ | h
    · cases hslot
    · exact .inl (.inr h)
  | take word bits bit landed pass hs s' _ hwoken hdead =>
    rw [InHand, hs] at h
    left
    right
    show r ∈ s'.pass.woken ++ s'.pass.dead
    rw [hwoken, hdead]
    rcases h with ⟨slot, hslot, hpayload⟩ | h
    · obtain rfl := List.mem_singleton.mp hslot
      cases landed <;> simp [hpayload]
    · have hmem : r ∈ pass.woken ∨ r ∈ pass.dead := List.mem_append.mp h
      simp only [List.mem_append]
      tauto
  | signal pass r' woken hs =>
    rw [InHand, hs] at h
    rcases h with ⟨slot, hslot, -⟩ | h
    · cases hslot
    · exact .inl (.inr h)
  | wake pass r' s' n hs _ hwoken hdead =>
    rw [InHand, hs] at h
    rcases h with ⟨slot, hslot, -⟩ | h
    · cases hslot
    · rw [Scanner.pass, hwoken, ← hdead] at h
      rcases List.mem_cons.mp h with rfl | h
      · exact .inr List.mem_cons_self
      · exact .inl (.inr h)
  | fault pass r' s' hs _ hwoken hdead =>
    rw [InHand, hs] at h
    rcases h with ⟨slot, hslot, -⟩ | h
    · cases hslot
    · rw [Scanner.pass, hdead, ← hwoken] at h
      rcases List.mem_append.mp h with h | h
      · exact .inl (.inr (List.mem_append_left _ h))
      · rcases List.mem_cons.mp h with rfl | h
        · exact .inr List.mem_cons_self
        · exact .inl (.inr (List.mem_append_right _ h))

/-- `r` is delivered before the scanner has made `n + 1` more accesses. -/
def Within (c : Process T O) (r : Registration) (n : ℕ) : Prop :=
  (∃ slot, c.Landed slot r ∧
    (c.scanner.Ahead slot ∧ c.scanner.work c.table.numWords ≤ n ∨
      c.scanner.work c.table.numWords + Scanner.round c.table.numWords + 1 ≤ n)) ∨
    c.InHand r ∧ c.scanner.work c.table.numWords ≤ n

theorem numWords_scan (clock : Clock) : (c.scan clock).table.numWords = c.table.numWords := by
  rw [SlotTable.numWords, numSlots_scans (scans clock), SlotTable.numWords]

theorem not_inHand_start {probing : Bool} (hs : c.scanner = .load 0 (.start probing)) :
    ¬ c.InHand r := by
  rw [InHand, hs]
  rintro (⟨slot, hslot, -⟩ | h)
  · cases hslot
  · cases h

/-- What the scanner has in hand it delivers before it begins another pass. -/
theorem within_inHand {clock : Clock} {n : ℕ}
    (hmoved : c.scanner.Advances c.table.numWords (c.scan clock).scanner)
    (h : (c.scan clock).InHand r) (hn : c.scanner.work c.table.numWords ≤ n) :
    ∃ m < n, (c.scan clock).Within r m := by
  rcases hmoved with hless | ⟨⟨probing, hstart⟩, -⟩
  · refine ⟨_, Nat.lt_of_lt_of_le hless hn, .inr ⟨h, ?_⟩⟩
    rw [numWords_scan]
  · exact absurd h (not_inHand_start hstart)

/-- An access of the scanner brings it closer. -/
theorem within_scan {n : ℕ} (hp : c.Placed) (h : c.Within r n) {clock : Clock}
    (hawake : c.asleep clock = false) :
    .handled r.waker ∈ (c.scan clock).log ∨ ∃ m < n, (c.scan clock).Within r m := by
  have hmoved := advances_scan hp hawake
  rcases h with ⟨slot, hlanded, hrank⟩ | ⟨hhand, hn⟩
  · right
    rcases landed_scans hp hlanded (scans clock) with hlanded' | hhand
    · rcases hrank with ⟨hahead, hn⟩ | hn
      · rcases ahead_scan hp hlanded hahead clock with hahead' | htaken
        · have hlt := (Bitmap.mem_members.mp hlanded.armed).1
          have hopen : ¬ c.scanner.Closes c.table.numWords :=
            hahead.not_closes (by rw [SlotTable.numWords]; omega)
          have hless := hmoved.resolve_right fun hstart => hopen hstart.2
          refine ⟨_, Nat.lt_of_lt_of_le hless hn, .inl ⟨slot, hlanded', .inl ⟨hahead', ?_⟩⟩⟩
          rw [numWords_scan]
        · exact within_inHand hmoved (.inl ⟨slot, htaken, hlanded'.payload⟩) hn
      · rcases hmoved with hless | ⟨⟨probing, hstart⟩, -⟩
        · refine ⟨_, ?_, .inl ⟨slot, hlanded', .inr (Nat.le_refl _)⟩⟩
          rw [numWords_scan]
          omega
        · refine ⟨Scanner.round c.table.numWords, by omega, .inl ⟨slot, hlanded', .inl ?_⟩⟩
          rw [hstart, numWords_scan, Scanner.work_start]
          exact ⟨Nat.zero_le _, Nat.le_refl _⟩
    · refine within_inHand hmoved hhand ?_
      omega
  · rcases inHand_scans hhand (scans clock) with hhand' | hhandled
    · exact .inr (within_inHand hmoved hhand' hn)
    · exact .inl hhandled

theorem Undisturbed.within {n : ℕ} (hu : Undisturbed c c') (h : c.Within r n) : c'.Within r n := by
  have hwords : c'.table.numWords = c.table.numWords := by
    rw [SlotTable.numWords, SlotTable.numWords, hu.numSlots]
  rw [Within, hu.scanner, hwords]
  rcases h with ⟨slot, hlanded, hrank⟩ | ⟨hhand, hn⟩
  · have hpayload := hu.payload slot (List.mem_append_left _ hlanded.armed)
    exact .inl ⟨slot, ⟨hu.armed slot hlanded.armed, hu.flag slot hlanded.armed hlanded.flag,
      hpayload.trans hlanded.payload⟩, hrank⟩
  · refine .inr ⟨?_, hn⟩
    rw [InHand, hu.scanner]
    rcases hhand with ⟨slot, hslot, hpayload⟩ | hmem
    · exact .inl ⟨slot, hslot, (hu.payload slot (List.mem_append_right _ hslot)).trans hpayload⟩
    · exact .inr hmem

/-- How many accesses the scanner makes. -/
def turns (c : Process T O) (inputs : List (Input T O)) : ℕ :=
  Response.turns step turn c inputs

/-- Delivery is a response of the scanner. -/
theorem delivers (r : Registration) : Response.Rule (step (T := T) (O := O)) turn Placed
    (fun c => .handled r.waker ∈ c.log) fun c n => c.Within r n where
  inv _ x hp := placed_step hp x
  done _ x hp h := (extends_step hp x).subset h
  lowers c x n hp h hturn := by
    obtain ⟨clock, hawake, heq⟩ := step_turn hturn
    rw [heq]
    exact within_scan hp h hawake
  keeps _ _ _ hp h hturn := (undisturbed_step hp hturn).within h

/-- A pass that has begun is never longer than a whole one. -/
def Bounded (c : Process T O) : Prop :=
  c.scanner.work c.table.numWords ≤ Scanner.round c.table.numWords

theorem bounded_init (numSlots : ℕ) : (init numSlots : Process T O).Bounded :=
  (Scanner.work_start (init numSlots : Process T O).table.numWords false).le

theorem bounded_step (h : c.Bounded) (hp : c.Placed) (x : Input T O) : (c.step x).Bounded := by
  cases hturn : c.turn x with
  | true =>
    obtain ⟨clock, hawake, heq⟩ := step_turn hturn
    rw [heq, Bounded, numWords_scan]
    rcases advances_scan hp hawake with hless | ⟨⟨probing, hstart⟩, -⟩
    · exact hless.le.trans h
    · rw [hstart, Scanner.work_start]
  | false =>
    have hu := undisturbed_step hp hturn
    rw [Bounded, SlotTable.numWords, hu.scanner, hu.numSlots]
    exact h

theorem bounded_run (h : c.Bounded) (hp : c.Placed) (inputs : List (Input T O)) :
    (c.run inputs).Bounded := by
  induction inputs generalizing c with
  | nil => exact h
  | cons x inputs ih => exact ih (bounded_step h hp x) (placed_step hp x)

/-- A callback whose flag has landed is delivered before the scanner has made two passes, whatever
else happens meanwhile. -/
theorem landed_delivered (numSlots : ℕ) (inputs more : List (Input T O)) (slot : ℕ)
    (r : Registration) (hlanded : ((init numSlots).run inputs).Landed slot r)
    (hturns : 2 * ((numSlots + 63) / 64 * 450 + 6) ≤ ((init numSlots).run inputs).turns more) :
    .handled r.waker ∈ (((init numSlots).run inputs).run more).log := by
  have hp : ((init numSlots).run inputs).Placed := (sound_reached numSlots inputs).placed
  have hwords : ((init numSlots).run inputs).table.numWords = (numSlots + 63) / 64 := by
    rw [SlotTable.numWords, numSlots_run (sound_init numSlots).placed]
    rfl
  have hbounded : ((init numSlots).run inputs).Bounded :=
    bounded_run (bounded_init numSlots) (sound_init numSlots).placed inputs
  have hwithin : ((init numSlots).run inputs).Within r
      (2 * ((numSlots + 63) / 64 * 450 + 5) + 1) := by
    refine .inl ⟨slot, hlanded, .inr ?_⟩
    rw [Bounded, hwords, Scanner.round] at hbounded
    rw [hwords, Scanner.round]
    omega
  exact (delivers r).responds hp hwithin more (Nat.lt_of_lt_of_le (by omega) hturns)

theorem aborted_scans (hscan : Scans c c') : c'.aborted = c.aborted := by
  have hwake : ∀ i, (c.wake i).aborted = c.aborted := by
    intro i
    unfold wake
    split <;> rfl
  cases hscan with
  | move | clear | take | signal => rfl
  | wake pass r | fault pass r => exact hwake r.waker

/-- Every access counts while `park` returns on its own. -/
theorem turns_replicate {clock : Clock} (hspurious : clock.spurious = true)
    (haborted : c.aborted = false) (k : ℕ) : c.turns (List.replicate k (.scan clock)) = k := by
  have hstays : ∀ c : Process T O, c.aborted = false →
      c.turn (.scan clock) = true ∧ (c.step (.scan clock)).aborted = false := by
    intro c haborted
    have hawake : c.asleep clock = false := by
      unfold asleep
      split <;> simp [hspurious]
    have hstep : c.step (.scan clock) = c.scan clock := if_neg (by simp [haborted])
    refine ⟨by simp [turn, haborted, hawake], ?_⟩
    rw [hstep]
    exact (aborted_scans (scans clock)).trans haborted
  exact Response.turns_replicate hstays haborted k

theorem landed_delivered_registering :
    .handled 0 ∈ (((init 1).run (registering 10 ++ [.device 0, .device 0])).run
      (List.replicate 912 (.scan ⟨true, true, true⟩))).log :=
  landed_delivered 1 _ _ 0 ⟨0, 0⟩ ⟨by decide, rfl, rfl⟩
    (le_of_le_of_eq (by decide) (turns_replicate rfl rfl 912).symm)

end Process
end Gudra.Reactor
