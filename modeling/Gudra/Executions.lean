import Gudra.Stores

/-! Kernels in flight: submission, accesses, completion and failure keep the invariant. -/
namespace Gudra

open Scope Interleave

variable {P : Platform} {α : Type} [Scalar α]

namespace World

variable {w w' : World P α} {i n : ℕ} {t t' : Task P α} {g g' : Ghost α} {l : Launch α}
  {r : Request P α} {before : List (Event P α)} {u : ℕ → Bool} {m : Addr → α}

/-! ### Launches -/

theorem next_of_permit {fs : Frames Name Atom} {st : ℕ → Status α}
    {ks : List (KernelEvent α)} {g₀ : Ghost α} (hp : r.permit g₀ fs g l) (hk : g.kernels = ks)
    (hst : ∀ x ∈ l.inputs, g.status x.storage.id = st x.storage.id) : r.Next g₀ st ks l := by
  cases r with
  | stepIntoAsync => exact hk ▸ hp.2.2.2
  | advanceAsync grid count params =>
    obtain ⟨-, -, -, j, hj, hhist, rfl, -, hat⟩ := hp
    refine ⟨j, hj, hk ▸ hhist, rfl, ?_⟩
    exact (hst _ List.mem_cons_self).symm.trans hat.current_eq
  | _ => trivial

theorem polled_of_permit {fs : Frames Name Atom} {g₀ : Ghost α} (hp : r.permit g₀ fs g l)
    (hasync : r.isAsync = true) :
    g.polled = true ∧ g.stopped = false ∧ fs.resources.Perm r.held := by
  cases r with
  | stepIntoAsync => exact ⟨hp.2.1, hp.2.2.1, hp.1⟩
  | advanceAsync => exact ⟨hp.2.1, hp.2.2.1, hp.1⟩
  | _ => cases hasync

/-- What is true when the code of task `i` executes a kernel. -/
structure Launching (w : World P α) (i : ℕ) (t : Task P α) (s : ℕ) (l : Launch α)
    (k : Except String Unit → Script α (Except Error (Outcome P α))) (r : Request P α)
    (before : List (Event P α)) (u : ℕ → Bool) (m : Addr → α) (g : Ghost α) : Prop where
  runs : Runs w i t r before u m
  wp : ((r.terms (Ghost.start before u)).logic P).wp (.eff (.execute s l) k)
    (r.post (Ghost.start before u)) t.frames g
  launchable : (r.terms (Ghost.start before u)).Launchable P t.frames g s l
  inv : r.inv t.frames g
  ok : r.inv t.frames (g.succeed l) ∧ ((r.terms (Ghost.start before u)).logic P).wp (k (.ok ()))
    (r.post (Ghost.start before u)) t.frames (g.succeed l)
  error : ∀ e, ∀ ks ∈ KernelEvent.failures l g.kernels, r.inv t.frames (g.fail l ks) ∧
    ((r.terms (Ghost.start before u)).logic P).wp (k (.error e)) (r.post (Ghost.start before u))
      t.frames (g.fail l ks)

variable {s : ℕ} {k : Except String Unit → Script α (Except Error (Outcome P α))}

theorem launching_of_goes (hg : t.Goes w i (.eff (.execute s l) k)) :
    ∃ r before u m g, Launching w i t s l k r before u m g ∧
      match t.pending with
      | none => Knows w i t.reach g
      | some n => Waits w i n t g l := by
  obtain ⟨r, before, u, m, g, hr, hwp, hinv, hp⟩ := hg
  refine ⟨r, before, u, m, g, ⟨hr, hwp, hwp.1, hinv, hwp.2.1, hwp.2.2⟩, ?_⟩
  cases hpending : t.pending with
  | none =>
    rw [hpending] at hp
    exact hp
  | some n =>
    rw [hpending] at hp
    obtain ⟨s', l', k', hc, hw⟩ := hp
    cases hc
    exact hw

theorem Launching.input_reach (h : Launching w i t s l k r before u m g) :
    ∀ x ∈ l.inputs, x.storage.id ∈ t.reach ∧ g.Ready x.storage := by
  intro x hx
  obtain ⟨hreach, -, hready⟩ := h.launchable.inputs x hx
  exact ⟨reach_eq h.runs (Ghost.start before u) ▸ hreach, hready⟩

theorem Launching.output_mem (h : Launching w i t s l k r before u m g) :
    l.output.storage.id ∈ t.exclusive :=
  exclusive_eq h.runs (Ghost.start before u) ▸ h.launchable.output_mem

theorem Launching.output_uncertain (h : Launching w i t s l k r before u m g)
    (hk : Knows w i t.reach g) (hlent : l.output.storage.id ∈ t.lent.map fun x => x.2.id) :
    w.uncertain l.output.storage.id = true := by
  have hid : l.output.storage.id ∈ (r.terms (Ghost.start before u)).lent.map Storage.id := by
    simp only [Request.terms, ← h.runs.lent_eq, List.map_map]
    exact hlent
  rw [← hk.uncertain_eq _ (List.mem_append_left _ h.output_mem)]
  exact h.launchable.output_uncertain hid

/-- The launch begins well. -/
theorem Launching.begins (h : Launching w i t s l k r before u m g) (hk : Knows w i t.reach g)
    (hpolled : .created i ∈ w.log → .polled i ∈ w.log) :
    Begins (.device i true :: w.log) i l r before u where
  check := h.launchable.work
  wellFormed := h.launchable.wellFormed
  operands x hx := by
    have hsettled : ∀ y : Tensor, y.storage.id ∈ t.reach → g.Ready y.storage →
        ∃ data, status (.device i true :: w.log) y.storage.id = .settled data ∧
          data.length = y.storage.len := by
      rintro y hy ⟨data, hdata, hlen⟩
      exact ⟨data, (hk.status_eq _ hy).symm.trans hdata, hlen⟩
    rcases List.mem_cons.mp hx with rfl | hx
    · refine ⟨h.launchable.output_session.trans h.launchable.session_eq, hsettled _ ?_ ?_⟩
      · exact List.mem_append_left _ h.output_mem
      · exact h.launchable.output_ready
    · obtain ⟨hreach, hready⟩ := h.input_reach x hx
      obtain ⟨-, hsession, -⟩ := h.launchable.inputs x hx
      exact ⟨hsession.trans h.launchable.session_eq, hsettled x hreach hready⟩
  next := by
    refine next_of_permit h.launchable.permit ?_ fun x hx => ?_
    · exact hk.kernels_eq.symm.trans (kernelsOf_of_none rfl).symm
    · exact hk.status_eq _ (h.input_reach x hx).1
  polled hasync := by
    obtain ⟨hp, hs, -⟩ := polled_of_permit h.launchable.permit hasync
    refine ⟨List.mem_cons_of_mem _ (hpolled (hk.polled.mp hp)), fun hmem => ?_⟩
    have hstopped := hk.stopped.mpr ((List.mem_cons.mp hmem).resolve_left nofun)
    rw [hs] at hstopped
    cases hstopped
  alive hmem := h.runs.alive ((List.mem_cons.mp hmem).resolve_left nofun)

/-- The world after task `i` submitted `l`. -/
def submitted (w : World P α) (i : ℕ) (l : Launch α) : World P α :=
  { w with
    flights := w.flights ++ [⟨i, l, l.blocks, .running⟩]
    log := .submitted i l :: .device i true :: w.log }

theorem status_submitted_of_ne {id : ℕ} (hne : id ≠ l.output.storage.id) :
    status (w.submitted i l).log id = status w.log id := Function.update_of_ne hne _ _

theorem spares_submitted {own : List ℕ} (hout : l.output.storage.id ∈ own) (t' : Task P α) :
    Spares w ((w.submitted i l).setTask i t') i own where
  log := by
    refine ⟨[.submitted i l, .device i true], rfl, fun e he => ?_⟩
    rcases List.mem_cons.mp he with rfl | he
    · rfl
    · rw [List.mem_singleton.mp he, Event.task]
  next := le_rfl
  status_eq id hid _ := status_submitted_of_ne fun he => hid (he ▸ hout)
  uncertain_eq _ _ _ := rfl
  memory_eq _ _ _ _ := rfl
  record_eq _ _ _ := rfl
  sessions _ _ hx := hx
  flights n f _ hf := by
    have hlt := (List.getElem?_eq_some_iff.mp hf).1
    exact (List.getElem?_append_left hlt).trans hf

theorem knows_submitted (hk : Knows w i t.reach g) : Knows (w.submitted i l) i t.reach (g.submit l)
    where
  status_eq id hid := by
    by_cases he : id = l.output.storage.id
    · rw [he]
      exact (Function.update_self ..).trans
        (show status (w.submitted i l).log _ = .busy from Function.update_self ..).symm
    · exact (Function.update_of_ne he _ _).trans
        ((hk.status_eq id hid).trans (status_submitted_of_ne he).symm)
  uncertain_eq := hk.uncertain_eq
  kernels_eq := by
    have hdevice : kernelsOf i (.device i true :: w.log) = g.kernels :=
      (kernelsOf_of_none rfl).trans hk.kernels_eq
    exact (kernelsOf_cons rfl).trans (congrArg (List.cons (KernelEvent.submitted l)) hdevice)
  polled := by
    refine hk.polled.trans ⟨fun hmem => ?_, fun hmem => ?_⟩
    · exact List.mem_cons_of_mem _ (List.mem_cons_of_mem _ hmem)
    · exact (List.mem_cons.mp ((List.mem_cons.mp hmem).resolve_left nofun)).resolve_left nofun
  stopped := by
    refine hk.stopped.trans ⟨fun hmem => ?_, fun hmem => ?_⟩
    · exact List.mem_cons_of_mem _ (List.mem_cons_of_mem _ hmem)
    · exact (List.mem_cons.mp ((List.mem_cons.mp hmem).resolve_left nofun)).resolve_left nofun
  refused e he := by
    obtain ⟨n, hn⟩ := hk.refused e he
    exact ⟨n, List.mem_cons_of_mem _ (List.mem_cons_of_mem _ hn)⟩

/-- A kernel is submitted. -/
theorem inv_submit (h : w.Inv) (hi : w.tasks[i]? = some t)
    (hc : t.control = .active (.eff (.execute s l) k)) (hpending : t.pending = none) :
    ((w.submitted i l).setTask i { t with pending := some w.flights.length }).Inv := by
  obtain ⟨hgoes, hpolled⟩ := h.active hi hc
  obtain ⟨r, before, u, m, g, hl, hk⟩ := launching_of_goes hgoes
  rw [hpending] at hk
  have hout := hl.output_mem
  have hspares := spares_submitted (w := w) (i := i) hout
    { t with pending := some w.flights.length }
  have hflight : (w.submitted i l).flights[w.flights.length]? =
      some ⟨i, l, l.blocks, .running⟩ := by simp [submitted]
  suffices hlocal : Local w _ i t { t with pending := some w.flights.length } from
    hlocal.inv hi h
  refine ⟨hspares, rfl, rfl, rfl, rfl, .inl ⟨rfl, rfl⟩, ?_, ?_, ?_, ?_, fun _ hxs => hxs.congr rfl,
    ?_, ?_, ?_⟩
  · refine ⟨⟨r, before, u, m, hl.runs.told.append [_], hl.begins hk hpolled⟩, ?_⟩
    exact ⟨⟨r, before, u, m, hl.runs.told, hl.launchable.work⟩, h.good⟩
  · intro id hid
    have hlt := h.reach_fresh (List.mem_of_getElem? hi) (List.mem_append_left _ hout)
    refine (status_submitted_of_ne ?_).trans (h.absent id hid)
    exact fun he => absurd hlt (not_lt.mpr (he ▸ hid))
  · intro id data _ hstatus
    by_cases he : id = l.output.storage.id
    · have hbusy : status (w.submitted i l).log id = .busy := he ▸ Function.update_self ..
      exact nomatch hbusy.symm.trans hstatus
    · exact h.holds id data ((status_submitted_of_ne he).symm.trans hstatus)
  · exact (List.sublist_append_right _ _).subperm
  · intro x hx hu
    have hlent : x.2.id ∈ t.lent.map fun x => x.2.id := List.mem_map_of_mem hx
    by_cases he : x.2.id = l.output.storage.id
    · have htrue := hl.output_uncertain hk (he ▸ hlent)
      exact nomatch (he ▸ htrue).symm.trans hu
    · obtain ⟨data, hdata, hlen⟩ := h.lent_ready hi hx hu
      exact ⟨data, (status_submitted_of_ne he).trans hdata, hlen⟩
  · refine (good_active (t := { t with pending := some w.flights.length }) hc).mpr
      ⟨Runs.waits (m := m) ?_ rfl hl.wp hl.inv ?_, fun hmem => ?_⟩
    · refine hspares.runs_self hl.runs rfl rfl rfl (fun _ hid => .inl hid) (fun hmem => ?_)
        (fun hnil => ?_) rfl
      · refine hl.runs.alive ?_
        exact (List.mem_cons.mp ((List.mem_cons.mp hmem).resolve_left nofun)).resolve_left nofun
      · exact nomatch (knows_submitted (l := l) hk).kernels_eq.symm.trans hnil
    · refine ⟨hl.launchable.wellFormed, hl.input_reach, hout,
        hl.output_uncertain hk, ?_⟩
      exact .running l.blocks w.memory [] hflight ((knows_submitted hk).congr rfl rfl)
        (fun _ _ _ => rfl) progress_refl
    · have hcreated : .created i ∈ w.log :=
        (List.mem_cons.mp ((List.mem_cons.mp hmem).resolve_left nofun)).resolve_left nofun
      exact List.mem_cons_of_mem _ (List.mem_cons_of_mem _ (hpolled hcreated))
  · intro n f hf hrun
    by_cases hlt : n < w.flights.length
    · have hf : w.flights[n]? = some f := (List.getElem?_append_left hlt).symm.trans hf
      rcases h.flight_cases hi hf hrun with hother | ⟨-, hp⟩
      · exact .inl hother
      · exact nomatch hpending.symm.trans hp
    · have hn : n = w.flights.length := by
        have hlt' := (List.getElem?_eq_some_iff.mp hf).1
        simp only [setTask, submitted, List.length_append, List.length_singleton] at hlt'
        omega
      subst hn
      obtain rfl := Option.some.inj (hflight.symm.trans hf)
      exact .inr ⟨rfl, rfl⟩

/-! ### Failures -/

/-- The world after an execution of task `i` ended without success. -/
def broken (w : World P α) (i : ℕ) (l : Launch α) (es : List (Event P α))
    (flights : List (Flight α)) (garbage : ℕ → α) : World P α :=
  { w with
    flights
    memory := fun a => if a.1 = l.output.storage.id then garbage a.2 else w.memory a
    log := .failed i l :: (es ++ w.log) }

section Failures

variable {es : List (Event P α)} {flights : List (Flight α)} {garbage : ℕ → α}
  (hes : ∀ e ∈ es, e = .device i true)
include hes

omit [Scalar α] in
theorem quiet_devices : ∀ e ∈ es, e.Quiet := by
  intro e he
  obtain rfl := hes e he
  trivial

theorem status_broken_of_ne {id : ℕ} (hne : id ≠ l.output.storage.id) :
    status (.failed i l :: (es ++ w.log)) id = status w.log id :=
  (Function.update_of_ne hne _ _).trans (congrFun (status_quiet (quiet_devices hes)) id)

omit [Scalar α] in
theorem mem_broken {e : Event P α} (hd : e ≠ .device i true) (hf : e ≠ .failed i l) :
    e ∈ Event.failed i l :: (es ++ w.log) ↔ e ∈ w.log := by
  refine ⟨fun he => ?_, fun he => List.mem_cons_of_mem _ (List.mem_append_right _ he)⟩
  rcases List.mem_append.mp ((List.mem_cons.mp he).resolve_left hf) with he | he
  · exact absurd (hes e he) hd
  · exact he

omit [Scalar α] in
theorem kernelsOf_broken :
    kernelsOf i (.failed i l :: (es ++ w.log)) = .failed l :: kernelsOf i w.log :=
  (kernelsOf_cons rfl).trans
    (congrArg (List.cons (KernelEvent.failed l)) (kernelsOf_quiet (quiet_devices hes)))

theorem knows_broken (hk : Knows w i t.reach g) (hlog : w'.log = .failed i l :: (es ++ w.log))
    (hu : w'.uncertain = w.uncertain) :
    Knows w' i t.reach (g.fail l (.failed l :: g.kernels)) where
  status_eq id hid := by
    rw [hlog]
    by_cases he : id = l.output.storage.id
    · rw [he]
      exact (Function.update_self ..).trans
        (show status (.failed i l :: (es ++ w.log)) _ = .broken from Function.update_self ..).symm
    · exact (Function.update_of_ne he _ _).trans
        ((hk.status_eq id hid).trans (status_broken_of_ne hes he).symm)
  uncertain_eq := hu ▸ hk.uncertain_eq
  kernels_eq := by
    rw [hlog]
    exact (kernelsOf_broken hes).trans (congrArg _ hk.kernels_eq)
  polled := by
    rw [hlog]
    exact hk.polled.trans (mem_broken hes (e := .created i) nofun nofun).symm
  stopped := by
    rw [hlog]
    exact hk.stopped.trans (mem_broken hes (e := .device i false) nofun nofun).symm
  refused e he := by
    obtain ⟨n, hn⟩ := hk.refused e he
    rw [hlog]
    exact ⟨n, List.mem_cons_of_mem _ (List.mem_append_right _ hn)⟩

theorem spares_broken {own : List ℕ} (hout : l.output.storage.id ∈ own)
    (hkeep : ∀ (n : ℕ) (f : Flight α), f.task ≠ i → w.flights[n]? = some f → flights[n]? = some f)
    (t' : Task P α) : Spares w ((w.broken i l es flights garbage).setTask i t') i own where
  log := by
    refine ⟨.failed i l :: es, rfl, fun e he => ?_⟩
    rcases List.mem_cons.mp he with rfl | he
    · rfl
    · obtain rfl := hes e he
      rfl
  next := le_rfl
  status_eq id hid _ := status_broken_of_ne hes fun he => hid (he ▸ hout)
  uncertain_eq _ _ _ := rfl
  memory_eq id hid _ _ := by
    have hne : id ≠ l.output.storage.id := fun he => hid (he ▸ hout)
    exact if_neg hne
  record_eq id _ _ := congrFun (gridRecord_quiet (quiet_devices hes)) id
  sessions _ _ hx := hx
  flights := hkeep

/-- A failed execution touches its output only. -/
theorem local_broken (garbage : ℕ → α) (t' : Task P α) (h : w.Inv) (hi : w.tasks[i]? = some t)
    (hout : l.output.storage.id ∈ t.exclusive)
    (huncertain : l.output.storage.id ∈ t.lent.map (fun x => x.2.id) →
      w.uncertain l.output.storage.id = true)
    (hgood : GoodLog (.failed i l :: (es ++ w.log)))
    (hkeep : ∀ (n : ℕ) (f : Flight α), f.task ≠ i → w.flights[n]? = some f → flights[n]? = some f)
    (hback : ∀ (n : ℕ) (f : Flight α), flights[n]? = some f → f.state = .running →
      f.task ≠ i ∧ w.flights[n]? = some f)
    (hframes : t'.frames = t.frames) (hshared : t'.shared = t.shared) (hlent : t'.lent = t.lent)
    (htask : t'.Good ((w.broken i l es flights garbage).setTask i t') i) :
    Local w ((w.broken i l es flights garbage).setTask i t') i t t' where
  spares := spares_broken hes hout hkeep t'
  tasks_eq := rfl
  owners_eq := rfl
  leaked_eq := rfl
  nextOwner_eq := rfl
  borrows := .inl ⟨hshared, hlent⟩
  good := hgood
  absent id hid := by
    have hlt := h.reach_fresh (List.mem_of_getElem? hi) (List.mem_append_left _ hout)
    have hne : id ≠ l.output.storage.id := fun he => absurd hlt (not_lt.mpr (he ▸ hid))
    exact (status_broken_of_ne hes hne).trans (h.absent id hid)
  holds id data _ hstatus := by
    by_cases he : id = l.output.storage.id
    · have hbroken : status (.failed i l :: (es ++ w.log)) id = .broken :=
        he ▸ Function.update_self ..
      exact nomatch hbroken.symm.trans hstatus
    · have hold := h.holds id data ((status_broken_of_ne hes he).symm.trans hstatus)
      exact hold.congr fun n => if_neg he
  resources := hframes ▸ (List.sublist_append_right _ _).subperm
  accounts _ hxs := hframes ▸ hxs.congr rfl
  lent_ready x hx hu := by
    have hmem : x.2.id ∈ t.lent.map fun x => x.2.id := List.mem_map_of_mem hx
    by_cases he : x.2.id = l.output.storage.id
    · have htrue := huncertain (he ▸ hmem)
      exact nomatch (he ▸ htrue).symm.trans hu
    · obtain ⟨data, hdata, hlen⟩ := h.lent_ready hi hx hu
      exact ⟨data, (status_broken_of_ne hes he).trans hdata, hlen⟩
  task := htask
  flights n f hf hrun := .inl (hback n f hf hrun)

/-- The code goes on with an error, or unwinds. -/
theorem inv_resumeFailed (h : w.Inv) (hi : w.tasks[i]? = some t)
    (hc : t.control = .active (.eff (.execute s l) k))
    (hl : Launching w i t s l k r before u m g) (hk : Knows w i t.reach g')
    (hfail : ∀ ks, g'.fail l ks = g.fail l ks)
    (hkernels : .failed l :: g'.kernels ∈ KernelEvent.failures l g.kernels)
    (huncertain : l.output.storage.id ∈ t.lent.map (fun x => x.2.id) →
      w.uncertain l.output.storage.id = true)
    (hgood : GoodLog (.failed i l :: (es ++ w.log)))
    (hkeep : ∀ (n : ℕ) (f : Flight α), f.task ≠ i → w.flights[n]? = some f → flights[n]? = some f)
    (hback : ∀ (n : ℕ) (f : Flight α), flights[n]? = some f → f.state = .running →
      f.task ≠ i ∧ w.flights[n]? = some f) {choice : Choice α} (hne : choice ≠ .ok) :
    (({ w with flights, log := es ++ w.log } : World P α).resumeFailed i t l k choice).Inv := by
  have hout := hl.output_mem
  obtain ⟨-, hpolled⟩ := h.active hi hc
  cases choice with
  | ok => exact absurd rfl hne
  | fail operation message garbage =>
    obtain ⟨hinv, hwp⟩ := hl.error message _ hkernels
    refine (local_broken hes garbage
      { t with pending := none, control := .active (k (.error message)) }
      h hi hout huncertain hgood hkeep hback rfl rfl rfl ?_).inv hi h
    refine (good_active rfl).mpr ⟨?_, fun hmem => ?_⟩
    · refine Runs.goes (m := m) ?_ rfl hwp hinv ?_
      · refine (spares_broken hes hout hkeep _).runs_self hl.runs rfl rfl rfl (fun _ hid => .inl hid)
          (fun hmem => ?_) (fun hnil => ?_) (gridRecord_quiet (quiet_devices hes))
        · exact hl.runs.alive ((mem_broken hes (e := .cancelled i) nofun nofun).mp hmem)
        · exact nomatch (kernelsOf_broken hes).symm.trans hnil
      · rw [← hfail]
        exact knows_broken hes hk rfl rfl
    · refine (mem_broken hes (e := .polled i) nofun nofun).mpr (hpolled ?_)
      exact (mem_broken hes (e := .created i) nofun nofun).mp hmem
  | unwind garbage =>
    refine (local_broken hes garbage { t with pending := none, control := .unwinding }
      h hi hout huncertain hgood hkeep hback rfl rfl rfl ?_).inv hi h
    exact nofun

end Failures

/-- The submission fails. -/
theorem inv_submitFailed (h : w.Inv) (hi : w.tasks[i]? = some t)
    (hc : t.control = .active (.eff (.execute s l) k)) (hpending : t.pending = none)
    {choice : Choice α} (hne : choice ≠ .ok) :
    ((w.record (.device i true)).resumeFailed i t l k choice).Inv := by
  obtain ⟨hgoes, hpolled⟩ := h.active hi hc
  obtain ⟨r, before, u, m, g, hl, hk⟩ := launching_of_goes hgoes
  rw [hpending] at hk
  have hdevice : ∀ e ∈ [(Event.device i true : Event P α)], e = .device i true :=
    fun e he => List.mem_singleton.mp he
  refine inv_resumeFailed hdevice h hi hc hl hk (fun _ => rfl) List.mem_cons_self
    (hl.output_uncertain hk) ?_ (fun _ _ _ hf => hf) ?_ hne
  · refine ⟨.inl ⟨r, before, u, m, hl.runs.told.append [_], hl.begins hk hpolled⟩, ?_⟩
    exact ⟨⟨r, before, u, m, hl.runs.told, hl.launchable.work⟩, h.good⟩
  · intro n f hf hrun
    rcases h.flight_cases hi hf hrun with hother | ⟨-, hp⟩
    · exact hother
    · exact nomatch hpending.symm.trans hp

/-! ### Waiting -/

/-- A flight that fails is not running any more. -/
theorem failed_back (h : w.Inv) (hi : w.tasks[i]? = some t) (hpending : t.pending = some n)
    {f₀ : Flight α} (hflight : w.flights[n]? = some f₀) {j : ℕ} {f : Flight α}
    (hf : (w.flights.set n { f₀ with state := .failed })[j]? = some f) (hrun : f.state = .running) :
    f.task ≠ i ∧ w.flights[j]? = some f := by
  by_cases hne : n = j
  · subst hne
    rw [List.getElem?_set_self (List.getElem?_eq_some_iff.mp hflight).1] at hf
    obtain rfl := Option.some.inj hf
    cases hrun
  · rw [List.getElem?_set_ne hne] at hf
    rcases h.flight_cases hi hf hrun with hother | ⟨-, hp⟩
    · exact hother
    · exact absurd (Option.some.inj (hpending.symm.trans hp)) hne

omit [Scalar α] in
theorem failed_keep {f₀ : Flight α} (hflight : w.flights[n]? = some f₀) (htask : f₀.task = i)
    {j : ℕ} {f : Flight α} (hne : f.task ≠ i) (hf : w.flights[j]? = some f) :
    (w.flights.set n { f₀ with state := .failed })[j]? = some f := by
  by_cases hnj : n = j
  · subst hnj
    exact absurd (Option.some.inj (hflight.symm.trans hf) ▸ htask) hne
  · rwa [List.getElem?_set_ne hnj]

/-- The flight of a task, and what the task knows by now. -/
theorem waits_cases (hw : Waits w i n t g l) : ∃ f g', w.flights[n]? = some f ∧ f.task = i ∧
    f.launch = l ∧ f.state ≠ .failed ∧ Knows w i t.reach g' ∧ g'.polled = g.polled ∧
    (∀ ks, g'.fail l ks = g.fail l ks) ∧
    .failed l :: g'.kernels ∈ KernelEvent.failures l g.kernels ∧
    (Event.failed i l).Good w.log ∧ (f.state = .completed → g' = g.succeed l) := by
  cases hw.aloft with
  | running progs m₀ done hf hk =>
    refine ⟨_, g.submit l, hf, rfl, rfl, nofun, hk, rfl, fun ks => ?_, ?_, ?_, nofun⟩
    · simp [Ghost.fail, Ghost.submit]
    · exact List.mem_cons_of_mem _ List.mem_cons_self
    · exact .inr (.inl ⟨g.kernels, hk.kernels_eq⟩)
  | completed progs hf hk =>
    refine ⟨_, g.succeed l, hf, rfl, rfl, nofun, hk, rfl, fun ks => ?_, ?_, ?_, fun _ => rfl⟩
    · simp [Ghost.fail, Ghost.succeed]
    · exact List.mem_cons_of_mem _ (List.mem_cons_of_mem _ List.mem_cons_self)
    · exact .inr (.inr ⟨g.kernels, hk.kernels_eq⟩)

/-- A task goes on waiting after a quiet move. -/
theorem Quiet.waits (hq : Quiet w w' i t t') (hw : Waits w i n t g l)
    (hframes : t'.frames = t.frames) (hshared : t'.shared = t.shared) (hlent : t'.lent = t.lent)
    (hcreated : .created i ∈ w'.log → .created i ∈ w.log)
    (hdevice : .device i false ∈ w'.log → .device i false ∈ w.log) : Waits w' i n t' g l where
  wellFormed := hw.wellFormed
  inputs := by
    simp only [Task.reach, Task.exclusive, hframes, hshared, hlent]
    exact hw.inputs
  output := by
    simp only [Task.exclusive, hframes, hlent]
    exact hw.output
  uncertain hmem := by
    rw [hq.uncertain_eq]
    exact hw.uncertain (hlent ▸ hmem)
  aloft := by
    cases hw.aloft with
    | running progs m₀ done hf hk hm hp =>
      refine .running progs m₀ done (hq.flights_eq ▸ hf)
        (hq.knows hk hshared hlent hcreated hdevice) ?_ ?_
      · exact hq.memory_eq ▸ hm
      · exact hq.memory_eq ▸ hp
    | completed progs hf hk =>
      exact .completed progs (hq.flights_eq ▸ hf) (hq.knows hk hshared hlent hcreated hdevice)

/-- The task looks at its kernel. -/
theorem inv_await (h : w.Inv) (hi : w.tasks[i]? = some t)
    (hc : t.control = .active (.eff (.execute s l) k)) (hpending : t.pending = some n)
    (choice : Choice α) : (w.await i t n s l k choice).Inv := by
  obtain ⟨hgoes, hpolled⟩ := h.active hi hc
  obtain ⟨r, before, u, m, g, hl, hw⟩ := launching_of_goes hgoes
  rw [hpending] at hw
  obtain ⟨f, g', hf, htask, hlaunch, hnot, hk, hsame, hfail, hkernels, hgood, hdone⟩ := waits_cases hw
  have hfailed : ∀ c : Choice α, c ≠ .ok →
      ((w.setFlight n { f with state := .failed }).resumeFailed i t l k c).Inv := by
    intro c hne
    have hnone : ∀ e ∈ ([] : List (Event P α)), e = .device i true :=
      fun _ he => absurd he List.not_mem_nil
    exact inv_resumeFailed hnone h hi hc hl hk hfail
      hkernels hw.uncertain ⟨hgood, h.good⟩ (fun _ _ => failed_keep hf htask)
      (fun _ _ => failed_back h hi hpending hf) hne
  cases choice with
  | fail operation message garbage =>
    simp only [await, hf]
    exact hfailed _ nofun
  | unwind garbage =>
    simp only [await, hf]
    exact hfailed _ nofun
  | ok =>
    simp only [await, hf]
    cases hstate : f.state with
    | failed => exact absurd hstate hnot
    | completed =>
      obtain rfl := hdone hstate
      have hq : Quiet w (w.setTask i { t with pending := none, control := .active (k (.ok ())) }) i t
          { t with pending := none, control := .active (k (.ok ())) } := by
        refine quiet_control rfl rfl rfl (.inr ?_)
        intro n' f' hn' hf' hrun
        obtain rfl := Option.some.inj (hpending.symm.trans hn')
        obtain rfl := Option.some.inj (hf.symm.trans hf')
        exact nomatch hstate.symm.trans hrun
      exact hq.goes h hi hc rfl rfl rfl rfl rfl id id h.good hl.runs hl.ok.2 hl.ok.1
        (hq.knows hk rfl rfl id id)
    | running =>
      by_cases hasync : t.request.any Call.isAsync = true
      · simp only [hasync, if_true]
        have hq : Quiet w (w.setTask i { t with control := .suspended (.eff (.execute s l) k) }) i t
            { t with control := .suspended (.eff (.execute s l) k) } :=
          quiet_control rfl rfl rfl (.inl rfl)
        have hr : r.isAsync = true := by simpa [hl.runs.request_eq] using hasync
        obtain ⟨hp, -, hheld⟩ := polled_of_permit hl.launchable.permit hr
        refine hq.inv h hi h.good ⟨?_, hk.polled.mp (hsame.trans hp), ?_⟩
        · exact Runs.waits (hq.runs hl.runs rfl rfl rfl hl.runs.alive) hpending hl.wp hl.inv
            (hq.waits hw rfl rfl rfl id id)
        · exact ⟨r, hl.runs.request_eq, hr, hheld⟩
      · simp only [hasync]
        exact h

/-- An unwinding task drops its next resource, after the kernel that may use it. -/
theorem inv_unwind (h : w.Inv) (hi : w.tasks[i]? = some t) (hc : t.control = .unwinding)
    (choice : Choice α) : (w.unwindTask i t choice).Inv := by
  cases hpending : t.pending with
  | none =>
    cases hunwind : t.frames.unwind with
    | none =>
      have heq : w.unwindTask i t choice =
          w.setTask i { t with control := .finished, shared := [], lent := [] } := by
        simp only [unwindTask, hpending, hunwind]
      have hframes : t.frames = [] := by
        cases hf : t.frames with
        | nil => rfl
        | cons f fs => cases f <;> simp [hf, Frames.unwind] at hunwind
      have hq : Quiet w (w.setTask i { t with control := .finished, shared := [], lent := [] }) i t
          { t with control := .finished, shared := [], lent := [] } :=
        { tasks_eq := rfl, owners_eq := rfl, leaked_eq := rfl, nextOwner_eq := rfl, memory_eq := rfl,
          uncertain_eq := rfl, flights_eq := rfl, next_eq := rfl, sessions := fun _ => rfl,
          log := ⟨[], rfl, fun _ he => absurd he List.not_mem_nil⟩, borrows := .inr ⟨rfl, rfl⟩,
          resources := .refl _, accounts := fun _ hxs => hxs.congr rfl, pending := .inl rfl }
      exact heq ▸ hq.inv h hi h.good ⟨hframes, hpending, rfl, rfl⟩
    | some x =>
      obtain ⟨d, frames⟩ := x
      have heq : w.unwindTask i t choice = (w.release d).setTask i { t with frames } := by
        simp only [unwindTask, hpending, hunwind]
      have hq : Quiet w ((w.release d).setTask i { t with frames }) i t { t with frames } :=
        quiet_release (unwind_perm hunwind) rfl rfl rfl
      refine heq ▸ hq.inv h hi ?_ ?_
      · exact (release_log w d).symm ▸ h.good
      · simp only [Task.Good, hc]
        intro n hn
        cases hpending.symm.trans hn
  | some n =>
    have hgood := h.tasks i t hi
    simp only [Task.Good, hc] at hgood
    obtain ⟨hlent, -, -, g, l, hw⟩ := hgood n hpending
    obtain ⟨f, -, hf, htask, rfl, -, -, -, -, -, hfailed, -⟩ := waits_cases hw
    have hbroken : ∀ garbage, (((w.setFlight n { f with state := .failed }).failLaunch i f.launch
        garbage).setTask i { t with pending := none }).Inv := by
      intro garbage
      have hnone : ∀ e ∈ ([] : List (Event P α)), e = .device i true :=
        fun _ he => absurd he List.not_mem_nil
      refine (local_broken hnone garbage { t with pending := none } h hi hw.output hw.uncertain
        ⟨hfailed, h.good⟩ (fun _ _ => failed_keep hf htask)
        (fun _ _ => failed_back h hi hpending hf) rfl rfl rfl
        ?_).inv hi h
      simp only [Task.Good, hc]
      simp
    cases choice with
    | fail operation message garbage =>
      simp only [unwindTask, hpending, hf]
      exact hbroken garbage
    | unwind garbage =>
      simp only [unwindTask, hpending, hf]
      exact hbroken garbage
    | ok =>
      simp only [unwindTask, hpending, hf]
      by_cases hstate : f.state = .completed
      · simp only [hstate, if_true]
        have hq : Quiet w (w.setTask i { t with pending := none }) i t { t with pending := none } := by
          refine quiet_control rfl rfl rfl (.inr ?_)
          intro n' f' hn' hf' hrun
          obtain rfl := Option.some.inj (hpending.symm.trans hn')
          obtain rfl := Option.some.inj (hf.symm.trans hf')
          cases hstate.symm.trans hrun
        refine hq.inv h hi h.good ?_
        simp only [Task.Good, hc]
        simp
      · simp only [hstate, if_false]
        exact h

/-! ### The device -/

theorem waits_kernels_ne (hw : Waits w i n t g l) : kernelsOf i w.log ≠ [] := by
  intro hnil
  cases hw.aloft with
  | running _ _ _ _ hk => exact nomatch hk.kernels_eq.symm.trans hnil
  | completed _ _ hk => exact nomatch hk.kernels_eq.symm.trans hnil

/-- What a task waits for, and that it stays good while it waits. -/
theorem Inv.waits (h : w.Inv) (hi : w.tasks[i]? = some t) (hpending : t.pending = some n) :
    ∃ g l, Waits w i n t g l ∧ ∀ w', Spares w w' i t.exclusive → Waits w' i n t g l →
      (∀ e : Event P α, (∀ l, e ≠ .completed i l) → e ∈ w'.log → e ∈ w.log) →
      gridRecord w'.log = gridRecord w.log → t.Good w' i := by
  have hgood := h.tasks i t hi
  have hgoes : ∀ c, t.Goes w i c → ∃ g l, Waits w i n t g l ∧ ∀ w', Spares w w' i t.exclusive →
      Waits w' i n t g l → (∀ e : Event P α, (∀ l, e ≠ .completed i l) → e ∈ w'.log → e ∈ w.log) →
      gridRecord w'.log = gridRecord w.log → t.Goes w' i c := by
    rintro c ⟨r, before, u, m, g, hr, hwp, hinv, hp⟩
    rw [hpending] at hp
    obtain ⟨s, l, k, rfl, hw⟩ := hp
    refine ⟨g, l, hw, fun w' hs hw' hlog hrec => ?_⟩
    refine Runs.waits (m := m) ?_ hpending hwp hinv hw'
    exact hs.runs_self hr rfl rfl rfl (fun _ hid => .inl hid)
      (fun hmem => hr.alive (hlog _ (by simp) hmem)) (fun hnil => absurd hnil (waits_kernels_ne hw')) hrec
  cases hc : t.control with
  | active c =>
    simp only [Task.Good, hc] at hgood ⊢
    obtain ⟨g, l, hw, hkeep⟩ := hgoes c hgood.1
    refine ⟨g, l, hw, fun w' hs hw' hlog hrec => ⟨hkeep w' hs hw' hlog hrec, fun hmem => ?_⟩⟩
    exact hs.mem_log (hgood.2 (hlog _ (by simp) hmem))
  | suspended c =>
    simp only [Task.Good, hc] at hgood ⊢
    obtain ⟨g, l, hw, hkeep⟩ := hgoes c hgood.1
    exact ⟨g, l, hw, fun w' hs hw' hlog hrec =>
      ⟨hkeep w' hs hw' hlog hrec, hs.mem_log hgood.2.1, hgood.2.2⟩⟩
  | forgotten c =>
    simp only [Task.Good, hc] at hgood ⊢
    obtain ⟨g, l, hw, hkeep⟩ := hgoes c hgood.1
    exact ⟨g, l, hw, fun w' hs hw' hlog hrec =>
      ⟨hkeep w' hs hw' hlog hrec, hs.mem_log hgood.2.1, hgood.2.2⟩⟩
  | unwinding =>
    simp only [Task.Good, hc] at hgood ⊢
    obtain ⟨hlent, hheld, ⟨r, before, u, m, hr, htold⟩, g, l, hw⟩ := hgood n hpending
    refine ⟨g, l, hw, fun w' hs hw' hlog hrec n' hn' => ?_⟩
    obtain rfl := Option.some.inj (hpending.symm.trans hn')
    exact ⟨hlent, hheld, ⟨r, before, u, m, hr, hs.told htold⟩, g, l, hw'⟩
  | finished =>
    simp only [Task.Good, hc] at hgood
    cases hgood.2.1.symm.trans hpending

omit [Scalar α] in
theorem tasks_set_self (hi : w.tasks[i]? = some t) : w.tasks.set i t = w.tasks := by
  obtain ⟨hlt, rfl⟩ := List.getElem?_eq_some_iff.mp hi
  exact List.set_getElem_self hlt

/-- An access of a launch changes its output only. -/
theorem access_memory {shape : Shape2D P} (hwf : l.WellFormed shape) {m₀ m m' : Addr → α}
    {acc : Access Addr α} {p p' : Prog Addr α Unit} (hacc : Foreseen m₀ l.blocks acc)
    (hstep : p.step m = some (acc, m', p')) {a : Addr} (ha : a.1 ≠ l.output.storage.id) :
    m' a = m a := by
  refine System.step_untouched hstep ?_
  rintro ⟨b, v⟩ hstored rfl
  cases acc with
  | load c x => cases hstored
  | store c x =>
    obtain ⟨rfl, rfl⟩ := Prod.mk.inj (Option.some.inj hstored)
    obtain ⟨y, -, hy⟩ := hwf.mem_stores.mp hacc
    exact ha (congrArg (fun x : Addr × α => x.1.1) hy)

/-- A kernel accesses memory. -/
theorem inv_access (h : w.Inv) {f : Flight α} (hf : w.flights[n]? = some f)
    (hrun : f.state = .running) {b : ℕ} {p p' : Prog Addr α Unit} {acc : Access Addr α}
    {memory : Addr → α} (hp : f.progs[b]? = some p) (hstep : p.step w.memory = some (acc, memory, p')) :
    ({ w.setFlight n { f with progs := f.progs.set b p' } with memory } : World P α).Inv := by
  obtain ⟨t, hi, hpending⟩ := h.flights n f hf hrun
  obtain ⟨g, l, hw, hkeep⟩ := h.waits hi hpending
  obtain ⟨shape, hwf⟩ := hw.wellFormed
  obtain ⟨j, l', progs, state⟩ := f
  cases hw.aloft with
  | completed progs' hf' =>
    cases Option.some.inj (hf.symm.trans hf')
    cases hrun
  | running progs' m₀ done hf' hk hinputs hprogress =>
    cases Option.some.inj (hf.symm.trans hf')
    obtain ⟨hprogress', hacc⟩ := hprogress.step (hwf.separate m₀) hp hstep
    have hmemory : ∀ id ≠ l.output.storage.id, ∀ n, memory (id, n) = w.memory (id, n) :=
      fun id hne n => access_memory hwf hacc hstep hne
    have hlt := (List.getElem?_eq_some_iff.mp hf).1
    have hflight : (w.flights.set n ⟨j, l, progs.set b p', .running⟩)[n]? =
        some ⟨j, l, progs.set b p', .running⟩ := List.getElem?_set_self hlt
    have hspares : Spares w { w.setFlight n ⟨j, l, progs.set b p', .running⟩ with memory } j
        t.exclusive := by
      refine ⟨⟨[], rfl, fun _ he => absurd he List.not_mem_nil⟩, le_rfl, fun _ _ _ => rfl,
        fun _ _ _ => rfl, fun id hid _ k => ?_, fun _ _ _ => rfl, fun _ _ hx => hx,
        fun k f hne hf'' => ?_⟩
      · exact hmemory id (fun he => hid (he ▸ hw.output)) k
      · by_cases hnk : n = k
        · subst hnk
          exact absurd (Option.some.inj (hf.symm.trans hf'') ▸ rfl) hne
        · exact (List.getElem?_set_ne hnk).trans hf''
    have hbusy : status w.log l.output.storage.id = .busy :=
      (hk.status_eq _ (List.mem_append_left _ hw.output)).symm.trans (Function.update_self ..)
    suffices hlocal : Local w { w.setFlight n ⟨j, l, progs.set b p', .running⟩ with memory } j t t
      from hlocal.inv hi h
    refine ⟨hspares, (tasks_set_self hi).symm, rfl, rfl, rfl, .inl ⟨rfl, rfl⟩, h.good, h.absent, ?_,
      (List.sublist_append_right _ _).subperm, fun _ hxs => hxs.congr rfl,
      fun x hx hu => h.lent_ready hi hx hu, ?_, ?_⟩
    · intro id data _ hstatus
      have hne : id ≠ l.output.storage.id := by
        rintro rfl
        exact nomatch hbusy.symm.trans hstatus
      exact (h.holds id data hstatus).congr (hmemory id hne)
    · refine hkeep _ hspares ?_ (fun _ _ he => he) rfl
      refine ⟨hw.wellFormed, hw.inputs, hw.output, hw.uncertain, ?_⟩
      refine .running (progs.set b p') m₀ (done ++ acc.stored.toList) hflight (hk.congr rfl rfl) ?_
        hprogress'
      exact fun x hx k => (hinputs x hx k).trans (hmemory _ (hwf.inputs_ne x hx) k).symm
    · intro k f hf'' hrun'
      by_cases hnk : n = k
      · subst hnk
        obtain rfl := Option.some.inj (hflight.symm.trans hf'')
        exact .inr ⟨rfl, hpending⟩
      · exact h.flight_cases hi ((List.getElem?_set_ne hnk).symm.trans hf'') hrun'

/-- What a finished kernel leaves in its output. -/
theorem finished_holds {shape : Shape2D P} (hwf : l.WellFormed shape) {m₀ memory : Addr → α}
    {done : List (Addr × α)} {progs : List (Prog Addr α Unit)}
    (hprogress : Progress m₀ l.blocks done memory progs) (hdone : ∀ p ∈ progs, p.finished = true)
    {read : ℕ → List α} (hread : ∀ x ∈ l.inputs, read x.storage.id = contents m₀ x.storage) :
    Holds memory l.output.storage.id (l.commit read) := by
  rw [hwf.commit_eq hread]
  refine holds_table fun x hx => ?_
  exact (hprogress.finished hdone).2 _ (hwf.mem_stores.mpr ⟨x, hx, rfl⟩)

/-- A kernel ends: its output is committed. -/
theorem inv_finish (h : w.Inv) {f : Flight α} (hf : w.flights[n]? = some f)
    (hrun : f.state = .running) (hdone : ∀ p ∈ f.progs, p.finished = true) :
    ((w.setFlight n { f with state := .completed }).record (.completed f.task f.launch)).Inv := by
  obtain ⟨t, hi, hpending⟩ := h.flights n f hf hrun
  obtain ⟨g, l, hw, hkeep⟩ := h.waits hi hpending
  obtain ⟨shape, hwf⟩ := hw.wellFormed
  obtain ⟨j, l', progs, state⟩ := f
  cases hw.aloft with
  | completed progs' hf' =>
    cases Option.some.inj (hf.symm.trans hf')
    cases hrun
  | running progs' m₀ done hf' hk hinputs hprogress =>
    cases Option.some.inj (hf.symm.trans hf')
    have hlt := (List.getElem?_eq_some_iff.mp hf).1
    have hout := List.mem_append_left (t.shared.map fun x => x.2.id) hw.output
    have hbusy : status w.log l.output.storage.id = .busy :=
      (hk.status_eq _ hout).symm.trans (Function.update_self ..)
    have hstatus : ∀ id ≠ l.output.storage.id, status (.completed j l :: w.log) id = status w.log id :=
      fun id hne => Function.update_of_ne hne _ _
    have hinput : ∀ x ∈ l.inputs, g.status x.storage.id = status w.log x.storage.id := by
      intro x hx
      exact (Function.update_of_ne (hwf.inputs_ne x hx) _ _).symm.trans
        (hk.status_eq _ (hw.inputs x hx).1)
    have hholds : Holds w.memory l.output.storage.id (l.commit fun id => (status w.log id).data) := by
      refine finished_holds hwf hprogress hdone fun x hx => ?_
      obtain ⟨data, hdata, hlen⟩ := (hw.inputs x hx).2
      have hsettled := (hinput x hx).symm.trans hdata
      have hx₀ := (h.holds _ _ hsettled).congr (hinputs x hx)
      rw [hx₀.contents_eq hlen, hsettled]
      rfl
    have hsettled : ∀ x ∈ l.inputs, ∃ data, status w.log x.storage.id = .settled data := by
      intro x hx
      obtain ⟨data, hdata, -⟩ := (hw.inputs x hx).2
      exact ⟨data, (hinput x hx).symm.trans hdata⟩
    have hcommitted : status (.completed j l :: w.log) l.output.storage.id =
        .settled (l.commit fun id => (status w.log id).data) := Function.update_self ..
    have hflight : (w.flights.set n ⟨j, l, progs, .completed⟩)[n]? =
        some ⟨j, l, progs, .completed⟩ := List.getElem?_set_self hlt
    have hspares : Spares w ((w.setFlight n ⟨j, l, progs, .completed⟩).record (.completed j l)) j
        t.exclusive := by
      refine ⟨⟨[.completed j l], rfl, fun e he => ?_⟩, le_rfl, fun id hid _ => ?_, fun _ _ _ => rfl,
        fun _ _ _ _ => rfl, fun _ _ _ => rfl, fun _ _ hx => hx, fun k f hne hf'' => ?_⟩
      · obtain rfl := List.mem_singleton.mp he
        rfl
      · exact hstatus id fun he => hid (he ▸ hw.output)
      · by_cases hnk : n = k
        · subst hnk
          exact absurd (Option.some.inj (hf.symm.trans hf'') ▸ rfl) hne
        · exact (List.getElem?_set_ne hnk).trans hf''
    suffices hlocal : Local w
        ((w.setFlight n ⟨j, l, progs, .completed⟩).record (.completed j l)) j t t from
      hlocal.inv hi h
    refine ⟨hspares, (tasks_set_self hi).symm, rfl, rfl, rfl, .inl ⟨rfl, rfl⟩,
      ⟨⟨hbusy, ⟨g.kernels, hk.kernels_eq⟩, hsettled⟩, h.good⟩, fun id hid => ?_,
      fun id data _ hid => ?_,
      (List.sublist_append_right _ _).subperm, fun _ hxs => hxs.congr rfl, fun x hx hu => ?_, ?_, ?_⟩
    · have hfresh := h.reach_fresh (List.mem_of_getElem? hi) hout
      have hne : id ≠ l.output.storage.id := fun he => absurd hfresh (not_lt.mpr (he ▸ hid))
      exact (hstatus id hne).trans (h.absent id hid)
    · by_cases he : id = l.output.storage.id
      · rw [he] at hid ⊢
        obtain rfl := Status.settled.inj (hcommitted.symm.trans hid)
        exact hholds
      · exact h.holds id data ((hstatus id he).symm.trans hid)
    · have hmem : x.2.id ∈ t.lent.map fun x => x.2.id := List.mem_map_of_mem hx
      by_cases he : x.2.id = l.output.storage.id
      · have htrue := hw.uncertain (he ▸ hmem)
        exact nomatch (he ▸ htrue).symm.trans hu
      · obtain ⟨data, hdata, hlen⟩ := h.lent_ready hi hx hu
        exact ⟨data, (hstatus _ he).trans hdata, hlen⟩
    · refine hkeep _ hspares ⟨hw.wellFormed, hw.inputs, hw.output, hw.uncertain,
        .completed progs hflight ⟨fun id hid => ?_, hk.uncertain_eq, ?_, ?_, ?_, ?_⟩⟩ ?_ rfl
      · by_cases he : id = l.output.storage.id
        · rw [he]
          refine Eq.trans ?_ hcommitted.symm
          refine (Function.update_self ..).trans (congrArg Status.settled ?_)
          exact Launch.commit_congr fun x hx => congrArg Status.data (hinput x hx)
        · have hsame : g.status id = status w.log id :=
            (Function.update_of_ne he _ _).symm.trans (hk.status_eq id hid)
          exact (Function.update_of_ne he _ _).trans (hsame.trans (hstatus id he).symm)
      · exact (kernelsOf_cons rfl).trans (congrArg (List.cons (KernelEvent.completed l)) hk.kernels_eq)
      · refine hk.polled.trans ⟨List.mem_cons_of_mem _, fun hmem => ?_⟩
        exact (List.mem_cons.mp hmem).resolve_left nofun
      · refine hk.stopped.trans ⟨List.mem_cons_of_mem _, fun hmem => ?_⟩
        exact (List.mem_cons.mp hmem).resolve_left nofun
      · intro e he
        obtain ⟨k, hk⟩ := hk.refused e he
        exact ⟨k, List.mem_cons_of_mem _ hk⟩
      · exact fun e hne hmem => (List.mem_cons.mp hmem).resolve_left (hne l)
    · intro k f hf'' hrun'
      by_cases hnk : n = k
      · subst hnk
        obtain rfl := Option.some.inj (hflight.symm.trans hf'')
        cases hrun'
      · exact h.flight_cases hi ((List.getElem?_set_ne hnk).symm.trans hf'') hrun'

end World
end Gudra
