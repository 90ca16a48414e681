import Mathlib.Tactic

/-! Sorted records written as a key and a body, one after the other, with nothing that tells a key
from a part of a body. -/
namespace Framing

variable {κ τ : Type} [LinearOrder κ]

/-- The tokens of some records. -/
def flatten (name : κ → τ) (rs : List (κ × List τ)) : List τ := rs.flatMap fun r => name r.1 :: r.2

/-- Sorted records with allowed keys, all required ones among them, and bodies of at least one
token. -/
structure Valid (allowed required : κ → Prop) (rs : List (κ × List τ)) : Prop where
  sorted : rs.Pairwise fun r r' => r.1 < r'.1
  bodies : ∀ r ∈ rs, r.2 ≠ []
  allowed : ∀ r ∈ rs, allowed r.1
  required : ∀ k, required k → k ∈ rs.map Prod.fst

/-- No key can be dropped, added or moved without a trace. -/
structure Unambiguous (name : κ → τ) (allowed required : κ → Prop) (rs : List (κ × List τ)) :
    Prop where
  required : ∀ pre k b rest, rs = pre ++ (k, b) :: rest → pre ≠ [] → required k
  between : ∀ pre k x q y rest, rs = pre ++ (k, x ++ name q :: y) :: rest → allowed q → k < q →
    (∀ r ∈ rest.head?, q < r.1) → x = [] ∨ y = []
  next : ∀ pre k x q y b rest, rs = pre ++ (k, x ++ name q :: y) :: (q, b) :: rest → x = []
  own : ∀ pre k x y rest, rs = pre ++ (k, x ++ name k :: y) :: rest → pre ≠ [] → y = []

variable {name : κ → τ} {allowed required : κ → Prop} {rs rs' pre pre' rest rest' : List (κ × List τ)}
  {k : κ} {b b' : List τ}

omit [LinearOrder κ] in
@[simp] theorem flatten_nil : flatten name [] = [] := rfl

omit [LinearOrder κ] in
@[simp] theorem flatten_cons :
    flatten name ((k, b) :: rest) = name k :: (b ++ flatten name rest) := by
  simp [flatten]

omit [LinearOrder κ] in
@[simp] theorem flatten_append :
    flatten name (pre ++ rest) = flatten name pre ++ flatten name rest := by
  simp [flatten]

omit [LinearOrder κ] in
theorem flatten_eq_nil (h : flatten name rs = []) : rs = [] := by
  cases rs with
  | nil => rfl
  | cons r rs => simp [flatten] at h

/-- A key that comes later than a record's stands in a later record. -/
theorem Valid.later (hv : Valid allowed required rs) (hrs : rs = pre ++ (k, b) :: rest) {q : κ}
    (hq : required q) (hk : k < q) : ∃ init c last, rest = init ++ (q, c) :: last := by
  obtain ⟨⟨q', c⟩, hmem, rfl⟩ := List.mem_map.mp (hv.required q hq)
  have hsorted := hv.sorted
  rw [hrs, List.pairwise_append] at hsorted
  rw [hrs, List.mem_append, List.mem_cons] at hmem
  rcases hmem with hmem | hmem | hmem
  · have hlt := hsorted.2.2 _ hmem (k, b) List.mem_cons_self
    exact absurd hlt hk.asymm
  · rw [Prod.mk.injEq] at hmem
    exact absurd hmem.1.symm hk.ne
  · obtain ⟨init, last, rfl⟩ := List.append_of_mem hmem
    exact ⟨init, c, last, rfl⟩

theorem Valid.next_lt (hv : Valid allowed required rs) {q : κ} {c : List τ}
    (hrs : rs = pre ++ (k, b) :: (q, c) :: rest) : k < q := by
  have hsorted := hv.sorted
  rw [hrs, List.pairwise_append, List.pairwise_cons] at hsorted
  exact hsorted.2.1.1 _ List.mem_cons_self

/-- The same token at a later place of one list. -/
theorem split_later {l l' m m' : List τ} {t : τ} (h : l ++ t :: m = l' ++ t :: m')
    (hlt : l.length < l'.length) : ∃ z, l' = l ++ t :: z ∧ m = z ++ t :: m' := by
  obtain ⟨z, rfl, hz⟩ | ⟨z, rfl, -⟩ := List.append_eq_append_iff.mp h
  · cases z with
    | nil => simp at hlt
    | cons t' z =>
      rw [List.cons_append, List.cons.injEq] at hz
      exact ⟨z, by rw [hz.1], hz.2⟩
  · simp at hlt

/-- A body ends no later than one token after another place of its own key. -/
theorem Unambiguous.own_short (hu : Unambiguous name allowed required rs)
    (hrs : rs = pre ++ (k, b) :: rest) (hpre : pre ≠ []) {z m : List τ}
    (h : b ++ flatten name rest = z ++ name k :: m) : b.length ≤ z.length + 1 := by
  obtain ⟨c, rfl, -⟩ | ⟨c, rfl, hc⟩ := List.append_eq_append_iff.mp h
  · simp only [List.length_append]
    omega
  · cases c with
    | nil => simp
    | cons t y =>
      rw [List.cons_append, List.cons.injEq] at hc
      have hy := hu.own pre k z y rest (by rw [hrs, hc.1]) hpre
      simp [hy]

section Unique

variable (hv : Valid allowed required rs) (hu : Unambiguous name allowed required rs)
  (hv' : Valid allowed required rs') (heq : flatten name rs = flatten name rs')
include hv hu hv' heq

/-- In no other reading does a key stand later than here. -/
theorem not_late (hrs : rs = pre ++ (k, b) :: rest) (hrs' : rs' = pre' ++ (k, b') :: rest')
    (hpre : pre ≠ []) : (flatten name pre').length ≤ (flatten name pre).length := by
  by_contra hlt
  rw [not_le] at hlt
  induction rest generalizing pre k b pre' b' rest' with
  | nil =>
    have hb' : 0 < b'.length := List.length_pos_iff.mpr (hv'.bodies (k, b') (by simp [hrs']))
    have hsame := heq
    rw [hrs, hrs'] at hsame
    simp only [flatten_append, flatten_cons] at hsame
    obtain ⟨z, -, hz⟩ := split_later hsame hlt
    have hshort := hu.own_short hrs hpre hz
    have hlen := congrArg List.length hz
    simp only [flatten_nil, List.length_append, List.length_cons, List.length_nil] at hlen
    omega
  | cons r rest ih =>
    obtain ⟨q, c⟩ := r
    have hb' : 0 < b'.length := List.length_pos_iff.mpr (hv'.bodies (k, b') (by simp [hrs']))
    have hsame := heq
    rw [hrs, hrs'] at hsame
    simp only [flatten_append, flatten_cons (k := k)] at hsame
    obtain ⟨z, hz', hz⟩ := split_later hsame hlt
    have hshort := hu.own_short hrs hpre hz
    -- The next key is required, so it comes later too.
    have hnext : rs = (pre ++ [(k, b)]) ++ (q, c) :: rest := by simp [hrs]
    have hq : required q := hu.required _ _ _ _ hnext (by simp)
    obtain ⟨init, c', last, rfl⟩ := hv'.later hrs' hq (hv.next_lt hrs)
    have hnext' : rs' = (pre' ++ (k, b') :: init) ++ (q, c') :: last := by simp [hrs']
    refine ih hnext hnext' (by simp) ?_
    simp only [flatten_append, flatten_cons, flatten_nil, List.length_append, List.length_cons,
      List.length_nil, hz']
    omega

/-- After a common start no other reading has a longer body. -/
theorem not_longer {t : τ} {y : List τ} (hrs : rs = pre ++ (k, b) :: rest)
    (hrs' : rs' = pre ++ (k, b ++ t :: y) :: rest')
    (hflat : flatten name rest = t :: y ++ flatten name rest') : False := by
  cases rest with
  | nil => simp at hflat
  | cons r rest =>
    obtain ⟨q, c⟩ := r
    have hnext : rs = (pre ++ [(k, b)]) ++ (q, c) :: rest := by simp [hrs]
    have hq : required q := hu.required _ _ _ _ hnext (by simp)
    obtain ⟨init, c', last, rfl⟩ := hv'.later hrs' hq (hv.next_lt hrs)
    have hnext' : rs' = (pre ++ (k, b ++ t :: y) :: init) ++ (q, c') :: last := by simp [hrs']
    have hlate := not_late hv hu hv' heq hnext hnext' (by simp)
    simp only [flatten_append, flatten_cons, flatten_nil, List.length_append, List.length_cons,
      List.length_nil] at hlate
    omega

/-- After a common start no other reading has a shorter body. -/
theorem not_shorter {t : τ} {y : List τ} (hrs : rs = pre ++ (k, b ++ t :: y) :: rest)
    (hrs' : rs' = pre ++ (k, b) :: rest')
    (hflat : flatten name rest' = t :: y ++ flatten name rest) : False := by
  cases rest' with
  | nil => simp at hflat
  | cons r' rest' =>
    obtain ⟨q, c⟩ := r'
    rw [flatten_cons, List.cons_append, List.cons.injEq] at hflat
    obtain ⟨rfl, hflat⟩ := hflat
    have hb : b ≠ [] := hv'.bodies (k, b) (by simp [hrs'])
    have hc : 0 < c.length := List.length_pos_iff.mpr (hv'.bodies (q, c) (by simp [hrs']))
    have hq : allowed q := hv'.allowed (q, c) (by simp [hrs'])
    have hkq : k < q := hv'.next_lt hrs'
    cases rest with
    | nil =>
      rcases hu.between pre k b q y [] hrs hq hkq (by simp) with hb' | rfl
      · exact hb hb'
      · simp only [flatten_nil, List.append_nil, List.append_eq_nil_iff] at hflat
        simp [hflat.1] at hc
    | cons r rest =>
      obtain ⟨q', c'⟩ := r
      have hnext : rs = (pre ++ [(k, b ++ name q :: y)]) ++ (q', c') :: rest := by simp [hrs]
      have hnext' : rs' = (pre ++ [(k, b)]) ++ (q, c) :: rest' := by simp [hrs']
      have hq' : required q' := hu.required _ _ _ _ hnext (by simp)
      rcases lt_trichotomy q q' with hlt | rfl | hgt
      · -- A new key between two others, or the next one comes too late.
        rcases hu.between pre k b q y _ hrs hq hkq (by simpa using hlt) with hb' | rfl
        · exact hb hb'
        · obtain ⟨init, c'', last, rfl⟩ := hv'.later hnext' hq' hlt
          have hlater : rs' = (pre ++ (k, b) :: (q, c) :: init) ++ (q', c'') :: last := by
            simp [hrs']
          have hlate := not_late hv hu hv' heq hnext hlater (by simp)
          simp only [flatten_append, flatten_cons, flatten_nil, List.length_append,
            List.length_cons, List.length_nil] at hlate
          omega
      · exact hb (hu.next pre k b q y c' rest hrs)
      · -- The next key would be missing.
        obtain ⟨init, c'', last, hinit⟩ := hv'.later hrs' hq' (hv.next_lt hrs)
        have hsorted := hv'.sorted
        rw [hnext', List.pairwise_append, List.pairwise_cons] at hsorted
        have hmem : (q', c'') ∈ (q, c) :: rest' := by simp [hinit]
        rcases List.mem_cons.mp hmem with he | hmem
        · exact hgt.ne (congrArg Prod.fst he)
        · exact hgt.asymm (hsorted.2.1.1 _ hmem)

/-- An unambiguous list of records has no other reading, from a common start on. -/
theorem tail_unique (hname : Function.Injective name) (hrs : rs = pre ++ rest)
    (hrs' : rs' = pre ++ rest') : rest = rest' := by
  have hflat : flatten name rest = flatten name rest' := by
    rw [hrs, hrs', flatten_append, flatten_append, List.append_cancel_left_eq] at heq
    exact heq
  induction rest generalizing pre rest' with
  | nil => exact (flatten_eq_nil hflat.symm).symm
  | cons r rest ih =>
    obtain ⟨k, b⟩ := r
    cases rest' with
    | nil => simp at hflat
    | cons r' rest' =>
      obtain ⟨k', b'⟩ := r'
      rw [flatten_cons, flatten_cons, List.cons.injEq] at hflat
      obtain ⟨hk, hflat⟩ := hflat
      obtain rfl := hname hk
      have hb : b = b' := by
        obtain ⟨c, hc, hrest⟩ | ⟨c, hc, hrest⟩ := List.append_eq_append_iff.mp hflat
        · cases c with
          | nil => rw [hc, List.append_nil]
          | cons t y => exact (not_longer hv hu hv' heq hrs (hc ▸ hrs') hrest).elim
        · cases c with
          | nil => rw [hc, List.append_nil]
          | cons t y => exact (not_shorter hv hu hv' heq (hc ▸ hrs) hrs' hrest).elim
      subst hb
      rw [List.append_cancel_left_eq] at hflat
      have hpre : rs = (pre ++ [(k, b)]) ++ rest := by simp [hrs]
      have hpre' : rs' = (pre ++ [(k, b)]) ++ rest' := by simp [hrs']
      rw [ih hpre hpre' hflat]

end Unique
omit [LinearOrder κ] in
/-- Bodies of one token leave no choice. -/
theorem eq_of_singletons (hname : Function.Injective name) (h : ∀ r ∈ rs, r.2.length = 1)
    (h' : ∀ r ∈ rs', r.2.length = 1) (heq : flatten name rs = flatten name rs') : rs = rs' := by
  induction rs generalizing rs' with
  | nil => exact (flatten_eq_nil heq.symm).symm
  | cons r rs ih =>
    cases rs' with
    | nil => simp [flatten] at heq
    | cons r' rs' =>
      obtain ⟨k, b⟩ := r
      obtain ⟨k', b'⟩ := r'
      obtain ⟨x, rfl⟩ := List.length_eq_one_iff.mp (h (k, b) List.mem_cons_self)
      obtain ⟨x', rfl⟩ := List.length_eq_one_iff.mp (h' (k', b') List.mem_cons_self)
      simp only [flatten_cons, List.singleton_append, List.cons.injEq] at heq
      obtain ⟨hk, rfl, hrest⟩ := heq
      obtain rfl := hname hk
      rw [ih (fun r hr => h r (List.mem_cons_of_mem _ hr))
        (fun r hr => h' r (List.mem_cons_of_mem _ hr)) hrest]

section Others

variable (hv : Valid allowed required rs)
include hv

/-- A key that nothing requires can be swallowed by the body before it. -/
theorem Valid.drop {q : κ} {c : List τ} (hrs : rs = pre ++ (q, c) :: (k, b) :: rest)
    (hk : ¬ required k) : Valid allowed required (pre ++ (q, c ++ name k :: b) :: rest) := by
  obtain ⟨hsorted, hbodies, hallowed, hrequired⟩ := hv
  subst hrs
  refine ⟨?_, ?_, ?_, ?_⟩
  · simp only [List.pairwise_append, List.pairwise_cons, List.forall_mem_cons] at hsorted ⊢
    obtain ⟨hpre, ⟨⟨-, hq⟩, -, hrest⟩, hacross⟩ := hsorted
    exact ⟨hpre, ⟨hq, hrest⟩, fun r hr => ⟨(hacross r hr).1, (hacross r hr).2.2⟩⟩
  · simp only [List.forall_mem_append, List.forall_mem_cons] at hbodies ⊢
    exact ⟨hbodies.1, by simp, hbodies.2.2.2⟩
  · simp only [List.forall_mem_append, List.forall_mem_cons] at hallowed ⊢
    exact ⟨hallowed.1, hallowed.2.1, hallowed.2.2.2⟩
  · intro r hr
    have hne : r ≠ k := fun he => hk (he ▸ hr)
    have hmem := hrequired r hr
    simp only [List.map_append, List.map_cons, List.mem_append, List.mem_cons] at hmem ⊢
    tauto

/-- An allowed key between two others can be split off a body. -/
theorem Valid.insert {x y : List τ} {q : κ} (hrs : rs = pre ++ (k, x ++ name q :: y) :: rest)
    (hq : allowed q) (hk : k < q) (hnext : ∀ r ∈ rest.head?, q < r.1) (hx : x ≠ []) (hy : y ≠ []) :
    Valid allowed required (pre ++ (k, x) :: (q, y) :: rest) := by
  obtain ⟨hsorted, hbodies, hallowed, hrequired⟩ := hv
  subst hrs
  refine ⟨?_, ?_, ?_, ?_⟩
  · simp only [List.pairwise_append, List.pairwise_cons, List.forall_mem_cons] at hsorted ⊢
    obtain ⟨hpre, ⟨hrest, hsorted⟩, hacross⟩ := hsorted
    have hafter : ∀ r ∈ rest, q < r.1 := by
      cases rest with
      | nil => exact fun r hr => absurd hr List.not_mem_nil
      | cons r rest =>
        have hr := hnext r rfl
        exact List.forall_mem_cons.mpr
          ⟨hr, fun r' hr' => hr.trans (List.rel_of_pairwise_cons hsorted hr')⟩
    exact ⟨hpre, ⟨⟨hk, hrest⟩, hafter, hsorted⟩,
      fun r hr => ⟨(hacross r hr).1, (hacross r hr).1.trans hk, (hacross r hr).2⟩⟩
  · simp only [List.forall_mem_append, List.forall_mem_cons] at hbodies ⊢
    exact ⟨hbodies.1, hx, hy, hbodies.2.2⟩
  · simp only [List.forall_mem_append, List.forall_mem_cons] at hallowed ⊢
    exact ⟨hallowed.1, hallowed.2.1, hq, hallowed.2.2⟩
  · intro r hr
    have hmem := hrequired r hr
    simp only [List.map_append, List.map_cons, List.mem_append, List.mem_cons] at hmem ⊢
    tauto

/-- Two neighbours can share their tokens in another way. -/
theorem Valid.move {q : κ} {c : List τ} (hrs : rs = pre ++ (k, b) :: (q, c) :: rest)
    {b' c' : List τ} (hb : b' ≠ []) (hc : c' ≠ []) :
    Valid allowed required (pre ++ (k, b') :: (q, c') :: rest) := by
  obtain ⟨hsorted, hbodies, hallowed, hrequired⟩ := hv
  subst hrs
  refine ⟨?_, ?_, ?_, ?_⟩
  · simpa only [List.pairwise_append, List.pairwise_cons, List.forall_mem_cons] using hsorted
  · simp only [List.forall_mem_append, List.forall_mem_cons] at hbodies ⊢
    exact ⟨hbodies.1, hb, hc, hbodies.2.2.2⟩
  · simpa only [List.forall_mem_append, List.forall_mem_cons] using hallowed
  · simpa only [List.map_append, List.map_cons] using hrequired

/-- Records can be read back from their tokens iff no key can be dropped, added or moved. -/
theorem unique_iff (hname : Function.Injective name) :
    (∀ rs', Valid allowed required rs' → flatten name rs' = flatten name rs → rs' = rs) ↔
      Unambiguous name allowed required rs := by
  constructor
  · intro h
    refine ⟨?_, ?_, ?_, ?_⟩
    · intro pre k b rest hrs hpre
      by_contra hk
      obtain ⟨init, ⟨q, c⟩, rfl⟩ := pre.eq_nil_or_concat'.resolve_left hpre
      rw [List.append_assoc, List.singleton_append] at hrs
      have hdrop : Valid allowed required (init ++ (q, c ++ name k :: b) :: rest) :=
        hv.drop hrs hk
      have heq := h _ hdrop (by simp [hrs])
      simp [hrs] at heq
    · intro pre k x q y rest hrs hq hk hnext
      by_contra hxy
      rw [not_or] at hxy
      have heq := h _ (hv.insert hrs hq hk hnext hxy.1 hxy.2) (by simp [hrs])
      simp [hrs] at heq
    · intro pre k x q y b rest hrs
      by_contra hx
      have hmove : Valid allowed required (pre ++ (k, x) :: (q, y ++ name q :: b) :: rest) :=
        hv.move hrs hx (by simp)
      have heq := h _ hmove (by simp [hrs])
      simp [hrs] at heq
    · intro pre k x y rest hrs hpre
      by_contra hy
      obtain ⟨init, ⟨q, c⟩, rfl⟩ := pre.eq_nil_or_concat'.resolve_left hpre
      rw [List.append_assoc, List.singleton_append] at hrs
      have hmove : Valid allowed required (init ++ (q, c ++ name k :: x) :: (k, y) :: rest) :=
        hv.move hrs (by simp) hy
      have heq := h _ hmove (by simp [hrs])
      simp [hrs] at heq
  · intro hu rs' hv' heq
    exact (tail_unique hv hu hv' heq.symm hname (List.nil_append rs).symm
      (List.nil_append rs').symm).symm

omit hv in
/-- Required records of one token each can be read back. -/
theorem unambiguous_of_singletons (hrequired : ∀ r ∈ rs, required r.1)
    (hone : ∀ r ∈ rs, r.2.length = 1) : Unambiguous name allowed required rs := by
  have hmem : ∀ {pre : List (κ × List τ)} {k : κ} {b : List τ} {rest : List (κ × List τ)},
      rs = pre ++ (k, b) :: rest → (k, b) ∈ rs := by
    intro pre k b rest hrs
    exact hrs ▸ List.mem_append_right _ List.mem_cons_self
  have hends : ∀ {pre : List (κ × List τ)} {k q : κ} {x y : List τ} {rest : List (κ × List τ)},
      rs = pre ++ (k, x ++ name q :: y) :: rest → x = [] ∧ y = [] := by
    intro pre k q x y rest hrs
    have hlen := hone _ (hmem hrs)
    simp only [List.length_append, List.length_cons] at hlen
    exact ⟨List.length_eq_zero_iff.mp (by omega), List.length_eq_zero_iff.mp (by omega)⟩
  refine ⟨?_, ?_, ?_, ?_⟩
  · exact fun pre k b rest hrs _ => hrequired _ (hmem hrs)
  · exact fun pre k x q y rest hrs _ _ _ => .inl (hends hrs).1
  · exact fun pre k x q y b rest hrs => (hends hrs).1
  · exact fun pre k x y rest hrs _ => (hends hrs).2

end Others
section Terminated

variable {β : Type} [DecidableEq β] {z : β}

/-- Tokens, each with its terminator. -/
def terminate (z : β) (tokens : List (List β)) : List β := tokens.flatMap (· ++ [z])

omit [DecidableEq β] in
theorem split_first {t t' m m' : List β} (h : z ∉ t) (h' : z ∉ t')
    (heq : t ++ z :: m = t' ++ z :: m') : t = t' ∧ m = m' := by
  obtain ⟨c, hc, hm⟩ | ⟨c, hc, hm⟩ := List.append_eq_append_iff.mp heq
  · cases c with
    | nil => exact ⟨by rw [hc, List.append_nil], (List.cons.inj hm).2⟩
    | cons x c =>
      obtain rfl := (List.cons.inj hm).1
      simp [hc] at h'
  · cases c with
    | nil => exact ⟨by rw [hc, List.append_nil], (List.cons.inj hm).2.symm⟩
    | cons x c =>
      obtain rfl := (List.cons.inj hm).1
      simp [hc] at h

omit [DecidableEq β] in
theorem terminate_injective {tokens tokens' : List (List β)} (h : ∀ t ∈ tokens, z ∉ t)
    (h' : ∀ t ∈ tokens', z ∉ t) (heq : terminate z tokens = terminate z tokens') :
    tokens = tokens' := by
  induction tokens generalizing tokens' with
  | nil =>
    cases tokens' with
    | nil => rfl
    | cons t' tokens' => simp [terminate] at heq
  | cons t tokens ih =>
    cases tokens' with
    | nil => simp [terminate] at heq
    | cons t' tokens' =>
      simp only [terminate, List.flatMap_cons, List.append_assoc, List.singleton_append] at heq
      obtain ⟨rfl, hrest⟩ := split_first (h t List.mem_cons_self) (h' t' List.mem_cons_self) heq
      rw [ih (fun t ht => h t (List.mem_cons_of_mem _ ht))
        (fun t ht => h' t (List.mem_cons_of_mem _ ht)) hrest]

theorem notMem_splitOn (xs : List β) : ∀ t ∈ xs.splitOn z, z ∉ t := by
  induction xs with
  | nil => simp
  | cons x xs ih =>
    rw [List.splitOn_cons_eq_if_modifyHead]
    split
    case isTrue => exact List.forall_mem_cons.mpr ⟨List.not_mem_nil, ih⟩
    case isFalse hx =>
      cases hsplit : xs.splitOn z with
      | nil => exact absurd hsplit (List.splitOn_ne_nil z xs)
      | cons t ts =>
        rw [hsplit] at ih
        have hne : z ≠ x := fun he => hx (beq_iff_eq.mpr he.symm)
        rw [List.modifyHead_cons, List.forall_mem_cons, List.mem_cons, not_or]
        exact ⟨⟨hne, ih t List.mem_cons_self⟩, fun t' ht' => ih t' (List.mem_cons_of_mem _ ht')⟩

omit [DecidableEq β] in
theorem terminate_eq {tokens : List (List β)} (h : tokens ≠ []) :
    terminate z tokens = [z].intercalate tokens ++ [z] := by
  induction tokens with
  | nil => exact absurd rfl h
  | cons t tokens ih =>
    cases tokens with
    | nil => simp [terminate, List.intercalate]
    | cons t' tokens =>
      have hrest := ih (List.cons_ne_nil _ _)
      simp only [terminate, List.flatMap_cons, List.intercalate, List.intersperse_cons_cons,
        List.flatten_cons, List.append_assoc] at hrest ⊢
      rw [hrest]

/-- The pieces between terminators, with them. -/
theorem terminate_splitOn (xs : List β) : terminate z (xs.splitOn z) = xs ++ [z] := by
  rw [terminate_eq (List.splitOn_ne_nil z xs), List.intercalate_splitOn]

theorem splitOn_injective : Function.Injective (List.splitOn z : List β → List (List β)) := by
  intro xs ys h
  have hjoin := congrArg ([z].intercalate ·) h
  simpa only [List.intercalate_splitOn] using hjoin

omit [LinearOrder κ] in
/-- Records as bytes: key and body, each with its terminator. -/
theorem terminate_flatten {name : κ → List β} (rs : List (κ × List β)) :
    terminate z (flatten name (rs.map fun r => (r.1, r.2.splitOn z))) =
      rs.flatMap fun r => name r.1 ++ [z] ++ (r.2 ++ [z]) := by
  induction rs with
  | nil => rfl
  | cons r rs ih =>
    rw [List.map_cons, flatten_cons, List.flatMap_cons, ← ih, ← terminate_splitOn r.2]
    simp only [terminate, List.flatMap_cons, List.flatMap_append, List.append_assoc]

end Terminated

end Framing
