import Mathlib.Tactic

/-! Sets of numbers as bits in words of `w` bits. -/
namespace Bitmap

variable {w n : ℕ} {b : ℕ → BitVec w} {i j word bit : ℕ} {x : BitVec w}

/-- Bit `i % w` of word `i / w`. -/
def test (b : ℕ → BitVec w) (i : ℕ) : Bool := (b (i / w)).getLsbD (i % w)

def set (b : ℕ → BitVec w) (i : ℕ) : ℕ → BitVec w :=
  Function.update b (i / w) (b (i / w) ||| (1#w <<< (i % w)))

def clear (b : ℕ → BitVec w) (word bit : ℕ) : ℕ → BitVec w :=
  Function.update b word (b word &&& ~~~(1#w <<< bit))

theorem getLsbD_one_shiftLeft (hbit : bit < w) :
    (1#w <<< bit).getLsbD i = decide (i = bit) := by
  rcases Nat.lt_trichotomy i bit with h | rfl | h
  · simp [h, h.ne]
  · simp [hbit]
  · by_cases hi : i < w
    · simp [hi, h.not_gt, h.ne', Nat.sub_ne_zero_of_lt h]
    · simp [hi, h.ne']

theorem div_mod_eq : (i / w = j / w ∧ i % w = j % w) ↔ i = j := by
  constructor
  · rintro ⟨hdiv, hmod⟩
    rw [← Nat.div_add_mod i w, hdiv, hmod, Nat.div_add_mod]
  · rintro rfl
    exact ⟨rfl, rfl⟩

theorem test_set (hw : 0 < w) : test (set b i) j = (test b j || decide (j = i)) := by
  by_cases hdiv : j / w = i / w
  · have heq : (j = i) ↔ j % w = i % w := by
      rw [← div_mod_eq]
      exact and_iff_right hdiv
    simp only [test, set, hdiv, Function.update_self, BitVec.getLsbD_or,
      getLsbD_one_shiftLeft (Nat.mod_lt i hw), heq]
  · have hne : j ≠ i := fun h => hdiv (congrArg (· / w) h)
    simp [test, set, hdiv, hne]

theorem test_clear (hbit : bit < w) :
    test (clear b word bit) j = (test b j && decide (j ≠ word * w + bit)) := by
  have hw : 0 < w := Nat.zero_lt_of_lt hbit
  have hmul : (word * w + bit) / w = word ∧ (word * w + bit) % w = bit := by
    rw [Nat.mul_comm, Nat.mul_add_div hw, Nat.div_eq_of_lt hbit, Nat.mul_add_mod, Nat.mod_eq_of_lt hbit]
    exact ⟨Nat.add_zero _, rfl⟩
  by_cases hdiv : j / w = word
  · have heq : (j = word * w + bit) ↔ j % w = bit := by
      rw [← div_mod_eq, hmul.1, hmul.2]
      exact and_iff_right hdiv
    have hlt : j % w < w := Nat.mod_lt j hw
    simp only [test, clear, hdiv, Function.update_self, BitVec.getLsbD_and, BitVec.getLsbD_not, hlt,
      getLsbD_one_shiftLeft hbit, ne_eq, heq, decide_true, decide_not, Bool.true_and]
  · have hne : j ≠ word * w + bit := fun h => hdiv ((congrArg (· / w) h).trans hmul.1)
    simp [test, clear, hdiv, hne]

/-- The word without its lowest bit. -/
def rest (x : BitVec w) : BitVec w := x &&& (x - 1#w)

theorem testBit_and_pred {m k : ℕ} (hk : m.testBit k = true) (hlow : ∀ j < k, m.testBit j = false) :
    (m &&& (m - 1)).testBit i = (m.testBit i && decide (i ≠ k)) := by
  -- `m` is an odd number shifted by `k`.
  have hmod : m % 2 ^ k = 0 := by
    refine Nat.eq_of_testBit_eq fun j => ?_
    rw [Nat.testBit_mod_two_pow, Nat.zero_testBit]
    by_cases hj : j < k
    · simp [hlow j hj]
    · simp [hj]
  obtain ⟨q, rfl⟩ := Nat.dvd_of_mod_eq_zero hmod
  have hodd : q % 2 = 1 := by
    rw [Nat.testBit_two_pow_mul] at hk
    simpa [Nat.testBit_zero] using hk
  obtain ⟨r, rfl⟩ : ∃ r, q = 2 * r + 1 := ⟨q / 2, by omega⟩
  have hpos : 0 < 2 ^ k := Nat.two_pow_pos k
  have hpred : 2 ^ k * (2 * r + 1) - 1 = 2 ^ k * (2 * r) + (2 ^ k - 1) := by
    rw [Nat.mul_add, Nat.mul_one, Nat.add_sub_assoc hpos]
  have hlt : 2 ^ k - 1 < 2 ^ k := Nat.sub_lt hpos Nat.one_pos
  rw [Nat.testBit_and, hpred, Nat.testBit_two_pow_mul_add _ hlt, Nat.testBit_two_pow_mul]
  rcases Nat.lt_trichotomy i k with h | rfl | h
  · simp [h.not_ge]
  · simp [Nat.testBit_zero]
  · obtain ⟨j, rfl⟩ : ∃ j, i = k + 1 + j := ⟨i - (k + 1), by omega⟩
    have hsub : k + 1 + j - k = j + 1 := by omega
    have hge : ¬ k + 1 + j < k := by omega
    simp only [hsub, hge, if_false, Nat.testBit_add_one]
    have h1 : 2 * r / 2 = r := by omega
    have h2 : (2 * r + 1) / 2 = r := by omega
    rw [h1, h2]
    have : k ≤ k + 1 + j := by omega
    have hne : k + 1 + j ≠ k := by omega
    simp [this, hne]

theorem getLsbD_rest (hx : x ≠ 0#w) :
    (rest x).getLsbD i = (x.getLsbD i && decide (i ≠ x.ctz.toNat)) := by
  have htrue := BitVec.getLsbD_true_ctz_of_ne_zero hx
  have hfalse : ∀ j < x.ctz.toNat, x.toNat.testBit j = false :=
    fun j hj => BitVec.getLsbD_false_of_lt_ctz hj
  have hpos : 1 ≤ x.toNat := by
    rw [Nat.one_le_iff_ne_zero]
    exact fun h => hx (BitVec.eq_of_toNat_eq (h.trans BitVec.toNat_zero.symm))
  have hsub : (x - 1#w).toNat = x.toNat - 1 := by
    rcases Nat.eq_zero_or_pos w with rfl | hw
    · exact absurd (BitVec.eq_nil x ▸ rfl) hx
    · rw [BitVec.toNat_sub_of_le]
      · simp [BitVec.toNat_ofNat, Nat.mod_eq_of_lt (Nat.one_lt_two_pow hw.ne')]
      · rw [BitVec.le_def]
        simpa [BitVec.toNat_ofNat, Nat.mod_eq_of_lt (Nat.one_lt_two_pow hw.ne')] using hpos
  have h := testBit_and_pred (i := i) htrue hfalse
  rw [← hsub, ← BitVec.toNat_and] at h
  exact h

/-- How many bits are set. -/
def ones (x : BitVec w) : ℕ := {i ∈ Finset.range w | x.getLsbD i = true}.card

theorem ones_le (x : BitVec w) : ones x ≤ w := by
  have hle := Finset.card_filter_le (Finset.range w) (x.getLsbD · = true)
  rwa [Finset.card_range] at hle

theorem ones_rest (hx : x ≠ 0#w) : ones (rest x) < ones x := by
  have htrue : x.getLsbD x.ctz.toNat = true := BitVec.getLsbD_true_ctz_of_ne_zero hx
  refine Finset.card_lt_card (Finset.ssubset_iff_of_subset ?_ |>.mpr ⟨x.ctz.toNat, ?_, ?_⟩)
  · refine Finset.monotone_filter_right _ fun i _ hi => ?_
    rw [getLsbD_rest hx] at hi
    exact (Bool.and_eq_true_iff.mp hi).1
  · exact Finset.mem_filter.mpr ⟨Finset.mem_range.mpr (BitVec.lt_of_getLsbD htrue), htrue⟩
  · intro hmem
    have hrest := (Finset.mem_filter.mp hmem).2
    rw [getLsbD_rest hx] at hrest
    simp at hrest

/-- The members below `n`. -/
def members (b : ℕ → BitVec w) (n : ℕ) : List ℕ := (List.range n).filter (test b)

theorem mem_members : i ∈ members b n ↔ i < n ∧ test b i = true := by
  simp [members]

theorem nodup_members : (members b n).Nodup := List.nodup_range.filter _

theorem members_set_perm (hw : 0 < w) (hi : i < n) (h : test b i = false) :
    (members (set b i) n).Perm (i :: members b n) := by
  have hmem : i ∉ members b n := by
    rw [mem_members, h]
    exact fun h => Bool.false_ne_true h.2
  rw [List.perm_ext_iff_of_nodup nodup_members (List.nodup_cons.mpr ⟨hmem, nodup_members⟩)]
  intro j
  rw [List.mem_cons, mem_members, mem_members, test_set hw]
  by_cases hj : j = i
  · simp [hj, hi]
  · simp [hj]

theorem members_clear_perm (hbit : bit < w) (hi : word * w + bit < n)
    (h : test b (word * w + bit) = true) :
    (members b n).Perm ((word * w + bit) :: members (clear b word bit) n) := by
  have hmem : word * w + bit ∉ members (clear b word bit) n := by
    rw [mem_members, test_clear hbit]
    simp
  rw [List.perm_ext_iff_of_nodup nodup_members (List.nodup_cons.mpr ⟨hmem, nodup_members⟩)]
  intro j
  rw [List.mem_cons, mem_members, mem_members, test_clear hbit]
  by_cases hj : j = word * w + bit
  · subst hj
    simp [hi, h]
  · simp [hj]

end Bitmap
