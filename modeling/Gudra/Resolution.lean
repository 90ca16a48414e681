import Gudra.Calls

/-! A call starts on the owners that it names. -/
namespace Gudra

open Scope Interleave

variable {P : Platform} {α : Type}

/-- What the names of a call stand for. -/
structure Resolved (w : World P α) (c : Invocation P α) (r : Request P α) : Prop where
  moved : ∃ ps : List (ℕ × Owner P), ps.map Prod.fst = c.moved ∧ ps.map Prod.snd = r.owned ∧
    ∀ p ∈ ps, p ∈ w.owners
  shared_names : (w.borrow c.shared).map Prod.fst = c.shared
  shared_eq : (w.borrow c.shared).map Prod.snd = r.shared
  lent_names : (w.borrow c.lent).map Prod.fst = c.lent
  lent_eq : (w.borrow c.lent).map Prod.snd = r.lent
  borrowed : ∀ x ∈ w.borrow c.shared ++ w.borrow c.lent,
    ∃ o, (x.1, o) ∈ w.owners ∧ o.buffers = [x.2]
  named : ∀ o ∈ r.named, ∃ n, (n, o) ∈ w.owners
  session : w.session? r.session.id = some r.session ∨ ∃ b ∈ r.buffers, r.session = b.session

namespace World

variable {w : World P α} {n : ℕ}

theorem owner?_of_halo? {g : HaloGrid2D P} (h : w.halo? n = some g) :
    w.owner? n = some (.halo g) := by
  simp only [halo?] at h
  split at h
  · next heq => exact Option.some.inj h ▸ heq
  · cases h

theorem owner?_of_field? {f : Field2D P} (h : w.field? n = some f) :
    w.owner? n = some (.field f) := by
  simp only [field?] at h
  split at h
  · next heq => exact Option.some.inj h ▸ heq
  · cases h

theorem owner?_of_grid? {g : DoubleGrid P} (h : w.grid? n = some g) :
    w.owner? n = some (.grid g) := by
  simp only [grid?] at h
  split at h
  · next heq => exact Option.some.inj h ▸ heq
  · cases h

theorem session?_id {s : Session} (h : w.session? n = some s) : w.session? s.id = some s := by
  have hid : s.id = n := by
    obtain ⟨x, -, rfl⟩ := Option.map_eq_some_iff.mp h
    rfl
  rwa [hid]

theorem borrow_names {xs : List (ℕ × Buffer P)}
    (h : ∀ x ∈ xs, ∃ o, w.owner? x.1 = some o ∧ o.buffers = [x.2]) :
    w.borrow (xs.map Prod.fst) = xs := by
  induction xs with
  | nil => rfl
  | cons x xs ih =>
    obtain ⟨o, ho, hbuffers⟩ := h x List.mem_cons_self
    have hrest := ih fun y hy => h y (List.mem_cons_of_mem _ hy)
    simp only [borrow, List.map_cons, List.filterMap_cons, ho, Option.bind_some, hbuffers,
      List.head?_cons, Option.map_some]
    exact congrArg _ hrest

section Resolve

variable {c : Invocation P α} {r : Request P α}

theorem resolved_of (moved : List (ℕ × Owner P)) (shared lent : List (ℕ × Buffer P))
    (hmoved : ∀ p ∈ moved, w.owner? p.1 = some p.2)
    (hshared : ∀ x ∈ shared, ∃ o, w.owner? x.1 = some o ∧ o.buffers = [x.2])
    (hlent : ∀ x ∈ lent, ∃ o, w.owner? x.1 = some o ∧ o.buffers = [x.2])
    (hc : c.moved = moved.map Prod.fst ∧ c.shared = shared.map Prod.fst ∧
      c.lent = lent.map Prod.fst)
    (hr : r.owned = moved.map Prod.snd ∧ r.shared = shared.map Prod.snd ∧
      r.lent = lent.map Prod.snd)
    (hnamed : ∀ o ∈ r.named, ∃ n, w.owner? n = some o)
    (hsession : w.session? r.session.id = some r.session ∨ ∃ b ∈ r.buffers, r.session = b.session) :
    Resolved w c r := by
  obtain ⟨hcm, hcs, hcl⟩ := hc
  obtain ⟨hrm, hrs, hrl⟩ := hr
  have hs : w.borrow c.shared = shared := hcs ▸ borrow_names hshared
  have hl : w.borrow c.lent = lent := hcl ▸ borrow_names hlent
  refine ⟨⟨moved, hcm.symm, hrm.symm, fun p hp => ?_⟩, ?_, ?_, ?_, ?_, fun x hx => ?_,
    fun o ho => ?_, hsession⟩
  · exact mem_of_owner? (hmoved p hp)
  · rw [hs, hcs]
  · rw [hs, hrs]
  · rw [hl, hcl]
  · rw [hl, hrl]
  · rw [hs, hl] at hx
    obtain ⟨o, ho, hbuffers⟩ := (List.mem_append.mp hx).elim (hshared x) (hlent x)
    exact ⟨o, mem_of_owner? ho, hbuffers⟩
  · obtain ⟨n, hn⟩ := hnamed o ho
    exact ⟨n, mem_of_owner? hn⟩

/-- A resolved call names owners of the right kinds. -/
theorem resolved (h : w.resolve c = some r) : Resolved w c r := by
  have hone : ∀ {n : ℕ} {o : Owner P} {b : Buffer P}, w.owner? n = some o → o.buffers = [b] →
      ∀ x ∈ [(n, b)], ∃ o, w.owner? x.1 = some o ∧ o.buffers = [x.2] := by
    intro n o b ho hbuffers x hx
    obtain rfl := List.mem_singleton.mp hx
    exact ⟨o, ho, hbuffers⟩
  cases c with
  | uploadHalo session shape data | uploadField session shape data =>
    simp only [resolve, Call.resolve, Option.bind_eq_bind, Option.bind_eq_some_iff,
      Option.pure_def, Option.some.injEq] at h
    obtain ⟨s, hs, rfl⟩ := h
    exact resolved_of [] [] [] nofun nofun nofun ⟨rfl, rfl, rfl⟩ ⟨rfl, rfl, rfl⟩ nofun
      (.inl (session?_id hs))
  | zeros session shape =>
    simp only [resolve, Call.resolve, Option.bind_eq_bind, Option.bind_eq_some_iff,
      Option.pure_def, Option.some.injEq] at h
    obtain ⟨s, hs, rfl⟩ := h
    exact resolved_of [] [] [] nofun nofun nofun ⟨rfl, rfl, rfl⟩ ⟨rfl, rfl, rfl⟩ nofun
      (.inl (session?_id hs))
  | doubleGrid session shape initial rhs =>
    simp only [resolve, Call.resolve, Option.bind_eq_bind, Option.bind_eq_some_iff,
      Option.pure_def, Option.some.injEq] at h
    obtain ⟨s, hs, rfl⟩ := h
    exact resolved_of [] [] [] nofun nofun nofun ⟨rfl, rfl, rfl⟩ ⟨rfl, rfl, rfl⟩ nofun
      (.inl (session?_id hs))
  | step session source rhs params =>
    simp only [resolve, Call.resolve, Option.bind_eq_bind, Option.bind_eq_some_iff,
      Option.pure_def, Option.some.injEq] at h
    obtain ⟨s, hs, u, hu, f, hf, rfl⟩ := h
    have hu := owner?_of_halo? hu
    have hf := owner?_of_field? hf
    refine resolved_of [] [(source, u.storage), (rhs, f.storage)] [] nofun ?_ nofun
      ⟨rfl, rfl, rfl⟩ ⟨rfl, rfl, rfl⟩ ?_ (.inl (session?_id hs))
    · exact List.forall_mem_cons.mpr ⟨⟨_, hu, rfl⟩, hone hf rfl⟩
    · exact List.forall_mem_cons.mpr ⟨⟨_, hu⟩, List.forall_mem_singleton.mpr ⟨_, hf⟩⟩
  | stepInto session source rhs output params =>
    simp only [resolve, Call.resolve, Option.bind_eq_bind, Option.bind_eq_some_iff,
      Option.pure_def, Option.some.injEq] at h
    obtain ⟨s, hs, u, hu, f, hf, o, ho, rfl⟩ := h
    have hu := owner?_of_halo? hu
    have hf := owner?_of_field? hf
    have ho := owner?_of_field? ho
    refine resolved_of [] [(source, u.storage), (rhs, f.storage)] [(output, o.storage)] nofun ?_
      (hone ho rfl) ⟨rfl, rfl, rfl⟩ ⟨rfl, rfl, rfl⟩ ?_ (.inl (session?_id hs))
    · exact List.forall_mem_cons.mpr ⟨⟨_, hu, rfl⟩, hone hf rfl⟩
    · exact List.forall_mem_cons.mpr ⟨⟨_, hu⟩, List.forall_mem_cons.mpr
        ⟨⟨_, hf⟩, List.forall_mem_singleton.mpr ⟨_, ho⟩⟩⟩
  | laplacianInto session source output params =>
    simp only [resolve, Call.resolve, Option.bind_eq_bind, Option.bind_eq_some_iff,
      Option.pure_def, Option.some.injEq] at h
    obtain ⟨s, hs, u, hu, o, ho, rfl⟩ := h
    have hu := owner?_of_halo? hu
    have ho := owner?_of_field? ho
    refine resolved_of [] [(source, u.storage)] [(output, o.storage)] nofun (hone hu rfl)
      (hone ho rfl) ⟨rfl, rfl, rfl⟩ ⟨rfl, rfl, rfl⟩ ?_ (.inl (session?_id hs))
    exact List.forall_mem_cons.mpr ⟨⟨_, hu⟩, List.forall_mem_singleton.mpr ⟨_, ho⟩⟩
  | stepIntoAsync session source rhs output params =>
    simp only [resolve, Call.resolve, Option.bind_eq_bind, Option.bind_eq_some_iff,
      Option.pure_def, Option.some.injEq] at h
    obtain ⟨s, hs, u, hu, f, hf, o, ho, rfl⟩ := h
    have hu := owner?_of_halo? hu
    have hf := owner?_of_field? hf
    have ho := owner?_of_field? ho
    refine resolved_of [(source, .halo u), (rhs, .field f), (output, .field o)] [] [] ?_ nofun nofun
      ⟨rfl, rfl, rfl⟩ ⟨rfl, rfl, rfl⟩ ?_ (.inl (session?_id hs))
    · exact List.forall_mem_cons.mpr ⟨hu, List.forall_mem_cons.mpr
        ⟨hf, List.forall_mem_singleton.mpr ho⟩⟩
    · exact List.forall_mem_cons.mpr ⟨⟨_, hu⟩, List.forall_mem_cons.mpr
        ⟨⟨_, hf⟩, List.forall_mem_singleton.mpr ⟨_, ho⟩⟩⟩
  | advance grid count params | advanceAsync grid count params | observe grid =>
    simp only [resolve, Call.resolve, Option.bind_eq_bind, Option.bind_eq_some_iff,
      Option.pure_def, Option.some.injEq] at h
    obtain ⟨g, hg, rfl⟩ := h
    have hg := owner?_of_grid? hg
    refine resolved_of [(grid, .grid g)] [] [] (List.forall_mem_singleton.mpr hg) nofun nofun
      ⟨rfl, rfl, rfl⟩ ⟨rfl, rfl, rfl⟩ (List.forall_mem_singleton.mpr ⟨_, hg⟩) (.inr ?_)
    exact ⟨g.current.storage, List.mem_cons_self, rfl⟩
  | intoHost field =>
    simp only [resolve, Call.resolve, Option.bind_eq_bind, Option.bind_eq_some_iff,
      Option.pure_def, Option.some.injEq] at h
    obtain ⟨f, hf, rfl⟩ := h
    have hf := owner?_of_field? hf
    refine resolved_of [(field, .field f)] [] [] (List.forall_mem_singleton.mpr hf) nofun nofun
      ⟨rfl, rfl, rfl⟩ ⟨rfl, rfl, rfl⟩ (List.forall_mem_singleton.mpr ⟨_, hf⟩) (.inr ?_)
    exact ⟨f.storage, List.mem_cons_self, rfl⟩

end Resolve
section Start

variable [Scalar α] {c : Invocation P α} {r : Request P α}

/-- The owner of a borrowed buffer holds nothing else. -/
theorem ids_of_buffers {o : Owner P} {b : Buffer P} (h : o.buffers = [b]) : o.ids = [b.id] := by
  rw [Owner.ids, h]
  rfl

theorem pre_apart (h : w.Inv) (hr : Resolved w c r) (hperm : w.Permitted c) :
    ((r.owned.flatMap Owner.buffers ++ r.lent).map Buffer.id).Nodup := by
  obtain ⟨ps, hnames, howned, hps⟩ := hr.moved
  have hlent : ∃ qs : List (ℕ × Owner P), qs.map Prod.fst = c.lent ∧ (∀ q ∈ qs, q ∈ w.owners) ∧
      qs.flatMap (fun q => q.2.ids) = r.lent.map Buffer.id := by
    rw [← hr.lent_names, ← hr.lent_eq]
    have hborrowed := fun x hx => hr.borrowed x (List.mem_append_right _ hx)
    generalize w.borrow c.lent = xs at hborrowed
    induction xs with
    | nil => exact ⟨[], rfl, nofun, rfl⟩
    | cons x xs ih =>
      obtain ⟨qs, hfst, hqs, hids⟩ := ih fun y hy => hborrowed y (List.mem_cons_of_mem _ hy)
      obtain ⟨o, ho, hbuffers⟩ := hborrowed x List.mem_cons_self
      refine ⟨(x.1, o) :: qs, congrArg _ hfst, List.forall_mem_cons.mpr ⟨ho, hqs⟩, ?_⟩
      rw [List.flatMap_cons, hids, ids_of_buffers hbuffers]
      rfl
  obtain ⟨qs, hfst, hqs, hids⟩ := hlent
  have hall : ((ps ++ qs).map Prod.fst).Nodup := by
    rw [List.map_append, hnames, hfst]
    exact hperm.1
  have hsplit := perm_filter_names h.names hall
    (List.forall_mem_append.mpr ⟨hps, hqs⟩)
  have hnodup := (hsplit.flatMap_right fun x => x.2.ids).nodup_iff.mp h.nodup_owners
  rw [List.flatMap_append, List.flatMap_append, hids] at hnodup
  have howned' : ps.flatMap (fun p => p.2.ids) = (r.owned.flatMap Owner.buffers).map Buffer.id := by
    rw [← howned, List.map_flatMap, List.flatMap_map]
    rfl
  rw [howned', ← List.map_append] at hnodup
  exact hnodup.of_append_left

theorem pre_shared (h : w.Inv) (hr : Resolved w c r) (hperm : w.Permitted c) :
    ∀ b ∈ r.shared, b.id ∉ (r.owned.flatMap Owner.buffers ++ r.lent).map Buffer.id := by
  intro b hb hid
  rw [← hr.shared_eq] at hb
  obtain ⟨x, hx, rfl⟩ := List.mem_map.mp hb
  obtain ⟨o, ho, hbuffers⟩ := hr.borrowed x (List.mem_append_left _ hx)
  have hshared : x.1 ∈ c.shared := hr.shared_names ▸ List.mem_map_of_mem hx
  have hself : x.2.id ∈ o.ids := by
    rw [ids_of_buffers hbuffers]
    exact List.mem_cons_self
  suffices hother : ∃ y ∈ w.owners, y.1 ∈ c.moved ++ c.lent ∧ x.2.id ∈ y.2.ids by
    obtain ⟨y, hy, hname, hidy⟩ := hother
    obtain rfl := h.owner_unique ho hy hself hidy
    exact (hperm.2.1 _ hname).2.2 hshared
  rw [List.map_append, List.mem_append] at hid
  rcases hid with hid | hid
  · obtain ⟨ps, hnames, howned, hps⟩ := hr.moved
    obtain ⟨b', hb', hid⟩ := List.mem_map.mp hid
    obtain ⟨o', ho', hb'⟩ := List.mem_flatMap.mp hb'
    rw [← howned] at ho'
    obtain ⟨p, hp, rfl⟩ := List.mem_map.mp ho'
    refine ⟨p, hps p hp, List.mem_append_left _ (hnames ▸ List.mem_map_of_mem hp), ?_⟩
    exact hid ▸ List.mem_map_of_mem hb'
  · obtain ⟨b', hb', hid⟩ := List.mem_map.mp hid
    rw [← hr.lent_eq] at hb'
    obtain ⟨y, hy, rfl⟩ := List.mem_map.mp hb'
    obtain ⟨o', ho', hbuffers'⟩ := hr.borrowed y (List.mem_append_right _ hy)
    refine ⟨(y.1, o'), ho', List.mem_append_right _ ?_, ?_⟩
    · exact hr.lent_names ▸ List.mem_map_of_mem hy
    · rw [ids_of_buffers hbuffers', ← hid]
      exact List.mem_cons_self

theorem Inv.pre (h : w.Inv) (hr : Resolved w c r) (hperm : w.Permitted c) :
    r.Pre (Ghost.start w.log w.uncertain) where
  kept o ho := by
    obtain ⟨n, hn⟩ := hr.named o ho
    exact (h.owners _ hn).kept
  ready o ho := by
    obtain ⟨n, hn⟩ := hr.named o ho
    exact (h.owners _ hn).ready
  apart := pre_apart h hr hperm
  shared_apart := pre_shared h hr hperm
  kernels_eq := rfl
  polled_eq := rfl
  stopped_eq := rfl

/-- The task of a call that starts. -/
def starting (w : World P α) (c : Invocation P α) (r : Request P α) : Task P α where
  request := some r
  frames := [r.entries]
  control := .active r.code
  pending := none
  shared := w.borrow c.shared
  lent := w.borrow c.lent

/-- The world in which task `n` is the new call `r`. -/
structure Starts (w w' : World P α) (c : Invocation P α) (r : Request P α) : Prop where
  log_eq : w'.log = .called w.tasks.length r (arguments w.uncertain w.memory r.buffers) :: w.log
  memory_eq : w'.memory = w.memory
  uncertain_eq : w'.uncertain = w.uncertain
  next_eq : w'.nextStorage = w.nextStorage
  sessions : ∀ s, w'.session? s = w.session? s

section Starts

variable {w' : World P α} (hs : Starts w w' c r)
include hs

theorem Starts.told (h : w.Inv) (hr : Resolved w c r) (hperm : w.Permitted c) :
    Told w'.log w.tasks.length r w.log w.uncertain w.memory where
  called := ⟨[], hs.log_eq⟩
  fresh e he := Nat.ne_of_lt (h.logged e he)
  pre := h.pre hr hperm
  holds := h.holds
  recorded g hg := by
    obtain ⟨n, hn⟩ := hr.named _ hg
    exact (h.owners _ hn).recorded g rfl

omit [Scalar α] in
theorem Starts.mem_log {e : Event P α} (he : e ∈ w'.log) (hne : ∀ t r args, e ≠ .called t r args) :
    e ∈ w.log := by
  rw [hs.log_eq] at he
  exact (List.mem_cons.mp he).resolve_left (hne _ _ _)

theorem Starts.unheard (h : w.Inv) {e : Event P α} (htask : e.task = w.tasks.length)
    (hne : ∀ t r args, e ≠ .called t r args) : e ∉ w'.log :=
  fun he => absurd (h.logged e (hs.mem_log he hne)) (by omega)

theorem Starts.kernels (h : w.Inv) : kernelsOf w.tasks.length w'.log = [] := by
  rw [hs.log_eq, kernelsOf_of_none rfl]
  exact kernelsOf_of_fresh fun e he => Nat.ne_of_lt (h.logged e he)

theorem Starts.runs (h : w.Inv) (hr : Resolved w c r) (hperm : w.Permitted c) :
    Runs w' w.tasks.length (w.starting c r) r w.log w.uncertain w.memory where
  request_eq := rfl
  told := hs.told h hr hperm
  shared_eq := hr.shared_eq
  lent_eq := hr.lent_eq
  known s hsession := by
    have hbuffer : ∀ b ∈ r.buffers, w.session? b.session.id = some b.session := by
      intro b hb
      rw [← Request.named_buffers] at hb
      obtain ⟨o, ho, hb⟩ := List.mem_flatMap.mp hb
      obtain ⟨n, hn⟩ := hr.named o ho
      exact (h.owners _ hn).known b hb
    rw [hs.sessions]
    rcases hsession with rfl | ⟨b, hb, rfl⟩
    · rcases hr.session with hsession | ⟨b, hb, hsession⟩
      · exact hsession
      · rw [hsession]
        exact hbuffer b hb
    · exact hbuffer b hb
  bound b hb := by
    rw [← Request.named_buffers] at hb
    obtain ⟨o, ho, hb⟩ := List.mem_flatMap.mp hb
    obtain ⟨n, hn⟩ := hr.named o ho
    rw [hs.next_eq]
    exact h.owner_fresh hn (List.mem_map_of_mem hb)
  alive := hs.unheard h rfl nofun
  memory_eq _ b _ n := by rw [hs.memory_eq]
  record_eq g _ _ := by
    rw [hs.log_eq]
    rfl

theorem Starts.knows (h : w.Inv) (reach : List ℕ) :
    Knows w' w.tasks.length reach (Ghost.start w.log w.uncertain) where
  status_eq id _ := by
    rw [hs.log_eq]
    rfl
  uncertain_eq id _ := by
    rw [hs.uncertain_eq]
    rfl
  kernels_eq := hs.kernels h
  polled := ⟨nofun, fun he => absurd he (hs.unheard h rfl nofun)⟩
  stopped := ⟨nofun, fun he => absurd he (hs.unheard h rfl nofun)⟩
  refused := nofun

theorem Starts.good (h : w.Inv) (hr : Resolved w c r) (hperm : w.Permitted c) :
    (w.starting c r).Good w' w.tasks.length := by
  refine (good_active rfl).mpr ⟨?_, fun he => absurd he (hs.unheard h rfl nofun)⟩
  refine Runs.goes (hs.runs h hr hperm) rfl (wp_request (h.pre hr hperm)) ?_ (hs.knows h _)
  cases r with
  | advanceAsync => exact ⟨nofun, nofun⟩
  | _ => trivial

end Starts

omit [Scalar α] in
theorem resources_entries : Frames.resources [r.entries] = r.owned.flatMap Owner.atoms := by
  cases r <;> rfl

theorem borrows_starting {ps : List (ℕ × Owner P)} (hr : Resolved w c r) (hperm : w.Permitted c)
    (hnames : ps.map Prod.fst = c.moved) : Borrows w ps (w.starting c r) := by
  obtain ⟨hnodup, hexclusive, hshared⟩ := hperm
  have hlent : ∀ n ∈ (w.borrow c.lent).map Prod.fst, n ∈ c.lent := fun n hn => hr.lent_names ▸ hn
  have hnames' : ∀ n ∈ (w.borrow c.shared).map Prod.fst, n ∈ c.shared :=
    fun n hn => hr.shared_names ▸ hn
  refine ⟨hr.borrowed, fun x hx hmem => ?_, ?_, fun n hn => ?_, fun n hn => ?_⟩
  · rw [hnames] at hmem
    rcases List.mem_append.mp hx with hx | hx
    · exact (hexclusive _ (List.mem_append_left _ hmem)).2.2 (hnames' _ (List.mem_map_of_mem hx))
    · exact List.disjoint_of_nodup_append hnodup hmem (hlent _ (List.mem_map_of_mem hx))
  · exact hr.lent_names.symm ▸ hnodup.of_append_right
  · obtain ⟨hns, hnl, hnc⟩ := hexclusive n (List.mem_append_right _ (hlent n hn))
    exact ⟨hns, hnl, fun hmem => hnc (hnames' n hmem)⟩
  · exact hshared n (hnames' n hn)

/-- A call starts. -/
theorem inv_call (h : w.Inv) (c : Invocation P α) : (w.call c).Inv := by
  simp only [call]
  cases hresolve : w.resolve c with
  | none => exact h
  | some r =>
    by_cases hperm : w.Permitted c
    · simp only [hperm, if_true]
      have hr := resolved hresolve
      obtain ⟨ps, hnames, howned, hps⟩ := hr.moved
      have hmoved : (c.moved).Nodup := hperm.1.of_append_left
      have hstarts : Starts w (w.departed
          [.called w.tasks.length r (w.snapshot r.buffers)] ps (w.starting c r)) c r :=
        ⟨rfl, rfl, rfl, rfl, fun _ => rfl⟩
      have hinv : (w.departed [.called w.tasks.length r (w.snapshot r.buffers)] ps
          (w.starting c r)).Inv := by
        refine inv_departed h (fun e he => ?_) ?_ (hnames ▸ hmoved) hps (fun n hn => ?_) ?_ ?_
          (hstarts.good h hr hperm)
        · obtain rfl := List.mem_singleton.mp he
          exact ⟨rfl, trivial⟩
        · have htold := hstarts.told h hr hperm
          exact ⟨⟨htold.fresh, _, _, rfl, htold.pre, htold.holds, htold.recorded⟩, h.good⟩
        · rw [hnames] at hn
          obtain ⟨hshared, hlent, -⟩ := hperm.2.1 n (List.mem_append_left _ hn)
          exact ⟨hshared, hlent⟩
        · refine .of_eq (resources_entries.trans ?_)
          rw [← howned, List.flatMap_map]
        · exact borrows_starting hr hperm hnames
      rw [departed, hnames] at hinv
      exact hinv
    · simp only [hperm, if_false]
      exact h

end Start
end World
end Gudra
