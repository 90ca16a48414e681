import Gudra.Charges
import Gudra.Locality
import Gudra.Progress
import Gudra.Refinement

/-! The protocol of an owned asynchronous batch. -/
namespace Gudra

open Scope Interleave

variable {P : Platform} {α : Type}

/-- How far a batch is: before its next launch, with a launch in flight, or failed. -/
inductive Stage (grid : DoubleGrid P) (count : ℕ) (params : JacobiParams α) :
    List (KernelEvent α) → Prop where
  | ready (k : ℕ) (hk : k ≤ count) : Stage grid count params (grid.history params k)
  | flying (k : ℕ) (hk : k < count) : Stage grid count params
      (.submitted ((grid.after k).operation params) :: grid.history params k)
  | failed (k : ℕ) (hk : k < count) (ks : List (KernelEvent α))
      (hks : ks ∈ KernelEvent.failures ((grid.after k).operation params) (grid.history params k)) :
      Stage grid count params ks

section Stages

variable {grid : DoubleGrid P} {count k : ℕ} {params : JacobiParams α} {l : Launch α}
  {ks : List (KernelEvent α)}

theorem failures_head (h : ks ∈ KernelEvent.failures l (grid.history params k)) :
    ∃ ks', ks = .failed l :: ks' := by
  simp only [KernelEvent.failures, List.mem_cons, List.not_mem_nil, or_false] at h
  rcases h with rfl | rfl | rfl
  · exact ⟨_, rfl⟩
  · exact ⟨_, rfl⟩
  · exact ⟨_, rfl⟩

/-- What is in flight is the next launch. -/
theorem Stage.of_submitted (h : Stage grid count params (.submitted l :: ks)) :
    ∃ k < count, l = (grid.after k).operation params ∧ ks = grid.history params k := by
  generalize hall : KernelEvent.submitted l :: ks = all at h
  cases h with
  | ready k hk => exact absurd hall.symm history_ne_submitted
  | flying k hk =>
    cases hall
    exact ⟨k, hk, rfl, rfl⟩
  | failed k hk _ hks =>
    obtain ⟨ks', rfl⟩ := failures_head hks
    cases hall

/-- What completed last is the launch before the next one. -/
theorem Stage.of_completed (h : Stage grid count params (.completed l :: ks)) :
    ∃ k < count, l = (grid.after k).operation params ∧
      .completed l :: ks = grid.history params (k + 1) := by
  generalize hall : KernelEvent.completed l :: ks = all at h
  cases h with
  | ready k hk =>
    cases k with
    | zero => cases hall
    | succ k =>
      cases hall
      exact ⟨k, hk, rfl, rfl⟩
  | flying k hk => cases hall
  | failed k hk _ hks =>
    obtain ⟨ks', rfl⟩ := failures_head hks
    cases hall

theorem history_not_failed : .failed l ∉ grid.history params k := by
  induction k with
  | zero => exact List.not_mem_nil
  | succ k ih =>
    intro h
    rcases List.mem_cons.mp h with h | h
    · cases h
    · rcases List.mem_cons.mp h with h | h
      · cases h
      · exact ih h

/-- The halves of a grid change places with every step. -/
theorem DoubleGrid.after_halves :
    (grid.after k).current = grid.current ∧ (grid.after k).next = grid.next ∨
      (grid.after k).current = grid.next ∧ (grid.after k).next = grid.current := by
  induction k with
  | zero => exact .inl ⟨rfl, rfl⟩
  | succ k ih =>
    rw [DoubleGrid.after_succ]
    rcases ih with ⟨hc, hn⟩ | ⟨hc, hn⟩
    · exact .inr ⟨hn, hc⟩
    · exact .inl ⟨hn, hc⟩

end Stages

section Logs

variable [Scalar α] {log before : List (Event P α)} {i : ℕ} {grid : DoubleGrid P} {count : ℕ}
  {params : JacobiParams α} {args : List (Bool × List α)} {l : Launch α}

/-- Task `i` is a batch. -/
def Batch (log : List (Event P α)) (i : ℕ) (grid : DoubleGrid P) (count : ℕ)
    (params : JacobiParams α) (args : List (Bool × List α)) : Prop :=
  ∃ after before, log = after ++ .called i (.advanceAsync grid count params) args :: before

/-- What a batch is told is its call. -/
theorem Batch.told (h : Batch log i grid count params args) (hlog : GoodLog log)
    {r : Request P α} {u : ℕ → Bool} {m : Addr → α} (ht : Told log i r before u m) :
    r = .advanceAsync grid count params ∧ args = arguments u m r.buffers := by
  obtain ⟨after, older, hcalled⟩ := h
  obtain ⟨rfl, hargs, -⟩ := ht.unique hlog hcalled
  exact ⟨rfl, hargs⟩

/-- A batch begins its launches in their order. -/
theorem Batch.next (h : Batch log i grid count params args) (hlog : GoodLog log)
    {r : Request P α} {u : ℕ → Bool} {m : Addr → α} (ht : Told log i r before u m)
    (hb : Begins log i l r before u) : ∃ k < count, kernelsOf i log = grid.history params k ∧
      l = (grid.after k).operation params := by
  obtain ⟨rfl, -⟩ := h.told hlog ht
  obtain ⟨k, hk, hks, hl, -⟩ := hb.next
  exact ⟨k, hk, hks, hl⟩

/-- What an event does to a batch. -/
theorem stage_cons {e : Event P α} (h : Batch log i grid count params args)
    (hlog : GoodLog (e :: log)) (hstage : Stage grid count params (kernelsOf i log)) :
    Stage grid count params (kernelsOf i (e :: log)) := by
  by_cases hi : e.task = i
  · subst hi
    obtain ⟨hgood, hlog⟩ := hlog
    rw [kernelsOf_cons rfl]
    cases e with
    | submitted i l =>
      obtain ⟨r, before, u, m, ht, hb⟩ := hgood
      obtain ⟨k, hk, hks, rfl⟩ := h.next hlog ht hb
      have hks : kernelsOf i log = grid.history params k := hks
      exact hks ▸ .flying k hk
    | completed i l =>
      obtain ⟨-, ⟨ks, hks⟩, -⟩ := hgood
      have hks : kernelsOf i log = .submitted l :: ks := hks
      have hstage : Stage grid count params (.submitted l :: ks) := hks ▸ hstage
      obtain ⟨k, hk, rfl, rfl⟩ := hstage.of_submitted
      exact hks ▸ .ready (k + 1) hk
    | failed i l =>
      have hstage : Stage grid count params (kernelsOf i log) := hstage
      rcases hgood with ⟨r, before, u, m, ht, hb⟩ | ⟨ks, hks⟩ | ⟨ks, hks⟩
      · obtain ⟨k, hk, hks, rfl⟩ := h.next hlog ht hb
        exact .failed k hk _ (hks ▸ List.mem_cons_self)
      · rw [hks] at hstage
        obtain ⟨k, hk, rfl, rfl⟩ := hstage.of_submitted
        exact .failed k hk _ (hks ▸ List.mem_cons_of_mem _ List.mem_cons_self)
      · rw [hks] at hstage
        obtain ⟨k, hk, rfl, hall⟩ := hstage.of_completed
        cases hall
        exact .failed k hk _
          (hks ▸ List.mem_cons_of_mem _ (List.mem_cons_of_mem _ List.mem_cons_self))
    | _ => exact hstage
  · rw [kernelsOf_cons_of_ne hi]
    exact hstage

/-- Every batch is at some stage. -/
theorem Batch.stage (h : Batch log i grid count params args) (hlog : GoodLog log) :
    Stage grid count params (kernelsOf i log) := by
  obtain ⟨after, before, rfl⟩ := h
  induction after with
  | nil =>
    have hnil : kernelsOf i (.called i (.advanceAsync grid count params) args :: before) = [] :=
      (kernelsOf_of_none rfl).trans (kernelsOf_of_fresh hlog.1.1)
    exact hnil ▸ .ready 0 (Nat.zero_le count)
  | cons e after ih => exact stage_cons ⟨after, before, rfl⟩ hlog (ih hlog.2)

/-- A batch is known from the first event of its task. -/
theorem Batch.of_told {r : Request P α} {u : ℕ → Bool} {m : Addr → α} {log' : List (Event P α)}
    (h : Batch log' i grid count params args) (hlog' : GoodLog log') (hsuffix : log <:+ log')
    (ht : Told log i r before u m) : Batch log i grid count params args := by
  obtain ⟨es, rfl⟩ := hsuffix
  obtain ⟨rfl, rfl⟩ := h.told hlog' (ht.append es)
  obtain ⟨after, rfl⟩ := ht.called
  exact ⟨after, before, rfl⟩

/-- The contents of the arguments of a batch. -/
theorem Batch.data_eq (h : Batch log i grid count params args) (hlog : GoodLog log)
    {r : Request P α} {u : ℕ → Bool} {m : Addr → α} (ht : Told log i r before u m)
    (hcheck : r.check u = .ok ()) : args.map Prod.snd =
      [(Ghost.start before u).data grid.current.storage.tensor.storage,
        (Ghost.start before u).data grid.next.storage.tensor.storage,
        (Ghost.start before u).data grid.rhs.storage.tensor.storage] := by
  obtain ⟨rfl, rfl⟩ := h.told hlog ht
  exact World.arguments_data ht hcheck

/-- The launch of step `k`, after the events `log`. -/
structure Submits (log : List (Event P α)) (i : ℕ) (grid : DoubleGrid P) (params : JacobiParams α)
    (args : List (Bool × List α)) (k : ℕ) (l : Launch α) : Prop where
  polled : .polled i ∈ log
  alive : .cancelled i ∉ log
  bound : .device i false ∉ log
  unfailed : ∀ l', .failed i l' ∉ log
  kernels : kernelsOf i log = grid.history params k
  launch : l = (grid.after k).operation params
  inputs : l.inputs = [(grid.after k).current.storage.tensor, grid.rhs.storage.tensor]
  output : l.output = (grid.after k).next.storage.tensor
  contents : ∃ u v f, args.map Prod.snd = [u, v, f] ∧
    status log (grid.after k).current.storage.id =
      .settled (Reference.timesteps grid.shape.interior f (List.replicate k params) u)

theorem Batch.submits (h : Batch log i grid count params args) (hlog : GoodLog log)
    (hgood : Event.Good log (.submitted i l)) : ∃ k < count, Submits log i grid params args k l := by
  obtain ⟨r, before, u, m, ht, hb⟩ := hgood
  have hdata := h.data_eq hlog ht hb.check
  obtain ⟨rfl, -⟩ := h.told hlog ht
  obtain ⟨k, hk, hks, rfl, hcontents⟩ := hb.next
  obtain ⟨hpolled, hdevice⟩ := hb.polled rfl
  refine ⟨k, hk, hpolled, hb.alive, hdevice, fun l' hl' => ?_, hks, rfl, ?_, rfl, _, _, _, hdata, ?_⟩
  · have hmem : .failed l' ∈ kernelsOf i log :=
      List.mem_filterMap.mpr ⟨_, List.mem_filter.mpr ⟨hl', decide_eq_true rfl⟩, rfl⟩
    exact history_not_failed (hks ▸ hmem)
  · rw [DoubleGrid.operation, Launch.inputs, DoubleGrid.after_rhs]
  · exact hcontents.trans (congrArg Status.settled (iterate_advanced params k _))

end Logs

section Worlds

variable [Scalar α] {w : World P α} {i n : ℕ} {t : Task P α} {grid : DoubleGrid P} {count : ℕ}
  {params : JacobiParams α} {args : List (Bool × List α)}
  {c : Script α (Except Error (Outcome P α))}

/-- The future ends: its last kernel ended, a call of the backend failed, or it is dropped and
waits for no kernel. -/
def Ending (w : World P α) (i : ℕ) (grid : DoubleGrid P) (count : ℕ) (params : JacobiParams α)
    (t : Task P α) : Prop :=
  t.pending = none ∧ (t.control = .unwinding ∨ t.control = .finished ∨ (∃ c, t.control = .active c) ∧
    (.device i false ∈ w.log ∨ kernelsOf i w.log = grid.history params count ∨
      ∃ l ks, kernelsOf i w.log = .failed l :: ks))

/-- Until it ends a batch holds its operation and its three buffers. -/
theorem Batch.held (hb : Batch w.log i grid count params args) (h : w.Inv)
    (hcreated : .created i ∈ w.log) (hi : w.tasks[i]? = some t) :
    Ending w i grid count params t ∨ t.frames.resources.Perm
      (.reservation ⟨grid.current.storage.session.id, 0, false⟩ :: (Owner.grid grid).atoms) := by
  have hrests : ∀ r, t.request = some r → t.frames.resources.Perm r.held → r =
      .advanceAsync grid count params → t.frames.resources.Perm
      (.reservation ⟨grid.current.storage.session.id, 0, false⟩ :: (Owner.grid grid).atoms) := by
    rintro r - hres rfl
    exact hres
  have hfuture : ∀ c, t.Goes w i c → t.Held → t.frames.resources.Perm
      (.reservation ⟨grid.current.storage.session.id, 0, false⟩ :: (Owner.grid grid).atoms) := by
    rintro c ⟨r, before, u, m, g, hruns, -⟩ ⟨r', hr', -, hres⟩
    obtain rfl := Option.some.inj (hruns.request_eq.symm.trans hr')
    exact hrests r hr' hres (hb.told h.good hruns.told).1
  have hgood := h.tasks i t hi
  cases hc : t.control with
  | active c =>
    simp only [Task.Good, hc] at hgood
    obtain ⟨⟨r, before, u, m, g, hruns, hwp, hinv, hp⟩, -⟩ := hgood
    obtain ⟨rfl, -⟩ := hb.told h.good hruns.told
    cases hpending : t.pending with
    | none =>
      rw [hpending] at hp
      obtain ⟨hready, hheld⟩ := hinv
      have hstage := hb.stage h.good
      have hending : (.device i false ∈ w.log ∨ kernelsOf i w.log = grid.history params count ∨
          ∃ l ks, kernelsOf i w.log = .failed l :: ks) → Ending w i grid count params t :=
        fun he => ⟨hpending, .inr (.inr ⟨⟨c, hc⟩, he⟩)⟩
      rw [hp.kernels_eq] at hstage hending
      generalize hks : g.kernels = ks at hstage hending
      cases hstage with
      | ready k hk =>
        rcases Nat.lt_or_eq_of_le hk with hlt | rfl
        · by_cases hdevice : .device i false ∈ w.log
          · exact .inl (hending (.inl hdevice))
          · have hstopped : g.stopped = false :=
              Bool.eq_false_iff.mpr fun hs => hdevice (hp.stopped.mp hs)
            exact .inr (hheld (hp.polled.mpr hcreated) hstopped ⟨k, hlt, hks⟩)
        · exact .inl (hending (.inr (.inl rfl)))
      | flying k hk => exact absurd hks (hready _ _)
      | failed k hk _ hfailed =>
        obtain ⟨ks', rfl⟩ := failures_head hfailed
        exact .inl (hending (.inr (.inr ⟨_, _, rfl⟩)))
    | some n =>
      rw [hpending] at hp
      obtain ⟨s, l, k, rfl, -⟩ := hp
      exact .inr hwp.1.permit.1
  | suspended c =>
    simp only [Task.Good, hc] at hgood
    exact .inr (hfuture c hgood.1 hgood.2.2)
  | forgotten c =>
    simp only [Task.Good, hc] at hgood
    exact .inr (hfuture c hgood.1 hgood.2.2)
  | unwinding =>
    simp only [Task.Good, hc] at hgood
    cases hpending : t.pending with
    | none => exact .inl ⟨hpending, .inl hc⟩
    | some n =>
      obtain ⟨-, ⟨r, hr, -, hres⟩, ⟨r', before, u, m, hr', ht⟩, -⟩ := hgood n hpending
      obtain rfl := Option.some.inj (hr.symm.trans hr')
      exact .inr (hrests r hr hres (hb.told h.good ht).1)
  | finished =>
    simp only [Task.Good, hc] at hgood
    exact .inl ⟨hgood.2.1, .inr (.inl hc)⟩

/-- What a batch holds is charged. -/
theorem charged_of_held (h : w.Inv) (hi : w.tasks[i]? = some t) (hres : t.frames.resources.Perm
      (.reservation ⟨grid.current.storage.session.id, 0, false⟩ :: (Owner.grid grid).atoms))
    (hkept : grid.Kept) {b : Budget P} (hbudget : w.budget? grid.current.storage.session.id = some b) :
    ∃ rest, b.usage = ⟨0, 0, 1⟩ + (Owner.grid grid).charge + rest := by
  have hcharge : total grid.current.storage.session.id (Owner.grid grid).atoms =
      (Owner.grid grid).charge := by
    have hatoms : (Owner.grid grid).Kept := hkept
    exact hatoms.total_atoms.trans (if_pos rfl)
  refine ⟨total grid.current.storage.session.id (w.others i), ?_⟩
  rw [Inv.usage_total h hbudget, total_perm (World.atoms_perm hi), total_append, total_perm hres,
    total_reservation, hcharge]
  simp

/-- Task `i` waits for flight `n`, the kernel of step `k`. -/
structure Flies (w : World P α) (i : ℕ) (grid : DoubleGrid P) (params : JacobiParams α)
    (args : List (Bool × List α)) (t : Task P α) (n k : ℕ) : Prop where
  flight : ∃ f, w.flights[n]? = some f ∧ f.task = i ∧ f.launch = (grid.after k).operation params
  /-- The halves are swapped `k` times. -/
  frames : t.frames =
    [gridFrame ⟨grid.current.storage.session.id, 0, false⟩ (grid.after k), []]
  contents : ∃ u v f, args.map Prod.snd = [u, v, f] ∧
    Gudra.contents w.memory (grid.after k).current.storage.tensor.storage =
      Reference.timesteps grid.shape.interior f (List.replicate k params) u

theorem Batch.flies (hb : Batch w.log i grid count params args) (h : w.Inv)
    (hg : t.Goes w i c) (hpending : t.pending = some n) :
    ∃ k < count, Flies w i grid params args t n k := by
  obtain ⟨r, before, u, m, g, hruns, hwp, -, hp⟩ := hg
  rw [hpending] at hp
  obtain ⟨s, l, c', rfl, hw⟩ := hp
  have hdata := hb.data_eq h.good hruns.told hwp.1.work
  obtain ⟨rfl, -⟩ := hb.told h.good hruns.told
  obtain ⟨-, -, -, k, hk, -, rfl, hframes, hat⟩ := hwp.1.permit
  obtain ⟨f, -, hf, htask, hlaunch, -⟩ := World.waits_cases hw
  obtain ⟨shape, hwf⟩ := hw.wellFormed
  have hne := hwf.inputs_ne _ List.mem_cons_self
  have hreach := (hw.inputs _ List.mem_cons_self).1
  -- The flight changes the other half only.
  have hstatus : status w.log (grid.after k).current.storage.id =
      .settled ((grid.shape.advanced params
        ((Ghost.start before u).data grid.rhs.storage.tensor.storage))^[k]
        ((Ghost.start before u).data grid.current.storage.tensor.storage,
          (Ghost.start before u).data grid.next.storage.tensor.storage)).1 := by
    cases hw.aloft with
    | running _ _ _ _ hknows =>
      have hsame := (hknows.status_eq _ hreach).symm.trans (Function.update_of_ne hne _ _)
      exact hsame.trans hat.current_eq
    | completed _ _ hknows =>
      have hsame := (hknows.status_eq _ hreach).symm.trans (Function.update_of_ne hne _ _)
      exact hsame.trans hat.current_eq
  have hcontents := (h.holds _ _ hstatus).contents_eq (s := (grid.after k).current.storage.tensor.storage)
    hat.current_len
  exact ⟨k, hk, ⟨f, hf, htask, hlaunch⟩, hframes, _, _, _, hdata,
    hcontents.trans (iterate_advanced params k _)⟩

/-- At most one kernel of a task runs. -/
theorem flight_unique (h : w.Inv) {n n' : ℕ} {f f' : Flight α} (hf : w.flights[n]? = some f)
    (hf' : w.flights[n']? = some f') (htask : f.task = i) (htask' : f'.task = i)
    (hrun : f.state = .running) (hrun' : f'.state = .running) : n = n' := by
  obtain ⟨t, ht, hn⟩ := h.flights n f hf hrun
  obtain ⟨t', ht', hn'⟩ := h.flights n' f' hf' hrun'
  rw [htask] at ht
  rw [htask'] at ht'
  obtain rfl := Option.some.inj (ht.symm.trans ht')
  exact Option.some.inj (hn.symm.trans hn')

/-- A running kernel of a batch writes the half that does not hold the current grid. -/
theorem Batch.writes (hb : Batch w.log i grid count params args) (h : w.Inv) {f : Flight α}
    (hf : w.flights[n]? = some f) (htask : f.task = i) (b : ℕ) {a : Addr}
    (ha : (w.access n b).memory a ≠ w.memory a) : ∃ k < count,
      f.launch = (grid.after k).operation params ∧ a.1 = (grid.after k).next.storage.id := by
  have hrun : f.state = .running := by
    cases hstate : f.state with
    | running => rfl
    | completed | failed =>
      have hsame : w.access n b = w := by simp only [World.access, hf, hstate]
      exact absurd (by rw [hsame]) ha
  obtain ⟨t, hi, hpending⟩ := h.flights n f hf hrun
  obtain ⟨g, l, hw, -⟩ := h.waits hi hpending
  obtain ⟨j, launch, progs, state⟩ := f
  obtain rfl : j = i := htask
  cases hw.aloft with
  | completed progs' hf' =>
    cases Option.some.inj (hf.symm.trans hf')
    cases hrun
  | running progs' m₀ done hf' hk =>
    cases Option.some.inj (hf.symm.trans hf')
    have hstage := hb.stage h.good
    rw [hk.kernels_eq] at hstage
    obtain ⟨k, hlt, hlaunch, -⟩ := hstage.of_submitted
    refine ⟨k, hlt, hlaunch, ?_⟩
    by_contra hne
    refine ha (World.Inv.access_memory_eq h hf b ?_)
    rw [hlaunch]
    exact hne

/-- A batch returns with success after its last step and only then. -/
theorem Batch.returned {log : List (Event P α)} {r : Request P α}
    {result : Except Error (Outcome P α)} {args' : List (Bool × List α)} {stored : List (List α)}
    (hb : Batch log i grid count params args) (hlog : GoodLog log)
    (hgood : Event.Good log (.returned i r result args' stored)) :
    .cancelled i ∉ log ∧
    (.created i ∈ log → ((∃ o, result = .ok o) ↔ kernelsOf i log = grid.history params count)) ∧
    ∀ o, result = .ok o → o = .grid (grid.after count) ∧ .polled i ∈ log ∧
      .device i false ∉ log ∧ kernelsOf i log = grid.history params count := by
  obtain ⟨before, u, m, ht, hcancel, hends⟩ := hgood
  obtain ⟨rfl, -⟩ := hb.told hlog ht
  refine ⟨hcancel, fun hcreated => ?_, ?_⟩
  · cases result with
    | ok o =>
      obtain ⟨-, -, -, hfinal, -⟩ := hends
      exact ⟨fun _ => hfinal, fun _ => ⟨o, rfl⟩⟩
    | error e =>
      refine ⟨nofun, fun hdone => ?_⟩
      exact absurd hdone (hends.2.2 hcreated)
  · rintro o rfl
    obtain ⟨-, -, hresult, hfinal, hpolled, -⟩ := hends
    cases o with
    | grid g => exact ⟨congrArg Outcome.grid hresult.1, (hpolled rfl).1, (hpolled rfl).2, hfinal⟩
    | _ => exact hresult.elim

/-- Task `i`, moved on, returns what its batch owes. -/
def Yields (w : World P α) (i : ℕ) (grid : DoubleGrid P) (count : ℕ) (params : JacobiParams α)
    (inputs : List (Input P α)) : Prop :=
  ∃ args stored, .returned i (.advanceAsync grid count params) (.ok (.grid (grid.after count)))
    args stored ∈ (w.run inputs).log

/-- After its last step the code of a batch runs to its end. -/
theorem Batch.yields_active (hb : Batch w.log i grid count params args) (h : w.Inv)
    (hcreated : .created i ∈ w.log) (hdone : kernelsOf i w.log = grid.history params count)
    (hi : w.tasks[i]? = some t) (hc : t.control = .active c) (hpending : t.pending = none) :
    ∃ n, Yields w i grid count params (List.replicate n (.tick i .ok)) := by
  obtain ⟨n, t', c', hi', -, hc', hpending', hstops, hgrows⟩ := h.exists_stop hi hc hpending
  generalize hw' : w.run (List.replicate n (.tick i .ok)) = w' at hi' hgrows
  have hinv' : w'.Inv := hw' ▸ World.inv_run h _
  have hcreated' : .created i ∈ w'.log := (hgrows.mem_iff (e := .created i) id).mpr hcreated
  have hdone' := hgrows.kernelsOf_eq.trans hdone
  have hb' : Batch w'.log i grid count params args := by
    obtain ⟨es, hes, -⟩ := hgrows
    obtain ⟨after, before, hcalled⟩ := hb
    exact ⟨es ++ after, before, by rw [hes, hcalled, List.append_assoc]⟩
  obtain ⟨⟨r, before, u, m, g, hruns, hwp, hinv, hp⟩, -⟩ := hinv'.active hi' hc'
  rw [hpending'] at hp
  obtain ⟨rfl, -⟩ := hb'.told hinv'.good hruns.told
  cases hstops with
  | returns result =>
    refine ⟨n + 1, ?_⟩
    obtain ⟨args', stored, -, hlog⟩ := World.tick_returns hi' hruns.request_eq hc' .ok
    have hgood := (World.inv_tick hinv' i .ok).good
    rw [hlog] at hgood
    obtain ⟨-, hiff, hok⟩ := hb'.returned hinv'.good hgood.1
    obtain ⟨o, rfl⟩ := (hiff hcreated').mpr hdone'
    obtain ⟨rfl, -⟩ := hok o rfl
    refine ⟨args', stored, ?_⟩
    rw [List.replicate_succ', World.run_append, hw']
    exact hlog ▸ List.mem_cons_self
  | hands k =>
    have hpolled := hp.polled.mpr hcreated'
    rw [hwp.2.1] at hpolled
    cases hpolled
  | executes s l k =>
    obtain ⟨-, -, -, j, hj, hkernels, -⟩ := hwp.1.permit
    have hcount := history_injective (hkernels.symm.trans (hp.kernels_eq.symm.trans hdone'))
    omega

theorem Batch.yields (hb : Batch w.log i grid count params args) (h : w.Inv)
    (hcreated : .created i ∈ w.log) (hdone : kernelsOf i w.log = grid.history params count)
    (hi : w.tasks[i]? = some t) (hc : t.control = .active c) :
    ∃ n, Yields w i grid count params (List.replicate n (.tick i .ok)) := by
  cases hpending : t.pending with
  | none => exact hb.yields_active h hcreated hdone hi hc hpending
  | some n =>
    obtain ⟨⟨r, before, u, m, g, -, -, -, hp⟩, -⟩ := h.active hi hc
    rw [hpending] at hp
    obtain ⟨s, l, k, rfl, hw⟩ := hp
    cases hw.aloft with
    | running _ _ _ _ hk => exact absurd (hdone.symm.trans hk.kernels_eq) history_ne_submitted
    | completed progs hf =>
      have htick : w.tick i .ok =
          w.setTask i { t with pending := none, control := .active (k (.ok ())) } := by
        simp only [World.tick, hi, hc, Code.internal, World.effect, hpending, World.await, hf]
      have hlog : (w.tick i .ok).log = w.log := by rw [htick]; rfl
      have hi' : (w.tick i .ok).tasks[i]? =
          some { t with pending := none, control := .active (k (.ok ())) } := by
        rw [htick]
        exact World.tasks_setTask hi
      have hrest := Batch.yields_active (hlog.symm ▸ hb) (World.inv_tick h i .ok)
        (hlog.symm ▸ hcreated) (hlog.symm ▸ hdone) hi' rfl rfl
      obtain ⟨n', hn'⟩ := hrest
      exact ⟨n' + 1, hn'⟩

/-- After its last step the next poll of a batch returns its grid. -/
theorem Batch.yields_poll (hb : Batch w.log i grid count params args) (h : w.Inv)
    (hcreated : .created i ∈ w.log) (hdone : kernelsOf i w.log = grid.history params count)
    (hi : w.tasks[i]? = some t) (hc : t.control = .active c ∨ t.control = .suspended c) :
    ∃ n, Yields w i grid count params (.poll i :: List.replicate n (.tick i .ok)) := by
  rcases hc with hc | hc
  · have hpoll : w.step (.poll i) = w := by simp only [World.step, World.resume, hi, hc]
    obtain ⟨n, hn⟩ := hb.yields h hcreated hdone hi hc
    refine ⟨n, ?_⟩
    rw [Yields, World.run, List.foldl_cons, hpoll]
    exact hn
  · have hpoll : w.step (.poll i) =
        (w.record (.polled i)).setTask i { t with control := .active c } := by
      simp only [World.step, World.resume, hi, hc]
    have hlog : (w.step (.poll i)).log = .polled i :: w.log := by rw [hpoll]; rfl
    have hi' : (w.step (.poll i)).tasks[i]? = some { t with control := .active c } := by
      rw [hpoll]
      exact World.tasks_setTask hi
    have hb' : Batch (w.step (.poll i)).log i grid count params args := by
      obtain ⟨after, before, hcalled⟩ := hb
      exact ⟨.polled i :: after, before, by rw [hlog, hcalled]; rfl⟩
    have hdone' : kernelsOf i (w.step (.poll i)).log = grid.history params count := by
      rw [hlog]
      exact (kernelsOf_of_none rfl).trans hdone
    obtain ⟨n, hn⟩ := hb'.yields (World.inv_step h (.poll i))
      (hlog ▸ List.mem_cons_of_mem _ hcreated) hdone' hi' rfl
    exact ⟨n, hn⟩

end Worlds

section Batches

variable [Scalar α]

/-- Task `i` keeps the protocol of a batch of `count` steps on `grid`. -/
structure Keeps (w : World P α) (i : ℕ) (grid : DoubleGrid P) (count : ℕ)
    (params : JacobiParams α) (args : List (Bool × List α)) : Prop where
  /-- Step `k` is submitted after the first poll and the steps before it, and neither after a
  failure nor after a drop. -/
  submitted : ∀ l log, .submitted i l :: log <:+ w.log →
    ∃ k < count, Submits log i grid params args k l
  completed : ∀ l log, .completed i l :: log <:+ w.log → ∃ k < count,
    l = (grid.after k).operation params ∧ kernelsOf i log = .submitted l :: grid.history params k
  stage : Stage grid count params (kernelsOf i w.log)
  alone : ∀ (n n' : ℕ) (f f' : Flight α), w.flights[n]? = some f → w.flights[n']? = some f' →
    f.task = i → f'.task = i → f.state = .running → f'.state = .running → n = n'
  writes : ∀ (n b : ℕ) (f : Flight α) (a : Addr), w.flights[n]? = some f → f.task = i →
    (w.access n b).memory a ≠ w.memory a → ∃ k < count,
      f.launch = (grid.after k).operation params ∧ a.1 = (grid.after k).next.storage.id
  /-- In flight, the future holds the grid of the completed steps. -/
  flying : ∀ (t : Task P α) (n : ℕ), w.tasks[i]? = some t → t.pending = some n →
    t.control ≠ .unwinding → ∃ k < count, Flies w i grid params args t n k
  /-- From its creation until it ends, the future is charged for its operation and its grid. -/
  held : .created i ∈ w.log → ∀ t : Task P α, w.tasks[i]? = some t →
    Ending w i grid count params t ∨
      t.frames.resources.Perm
        (.reservation ⟨grid.current.storage.session.id, 0, false⟩ :: (Owner.grid grid).atoms) ∧
      ∀ b, w.budget? grid.current.storage.session.id = some b →
        ∃ rest, b.usage = ⟨0, 0, 1⟩ + (Owner.grid grid).charge + rest
  returned : ∀ r result args' stored log, .returned i r result args' stored :: log <:+ w.log →
    .cancelled i ∉ log ∧
    (.created i ∈ log → ((∃ o, result = .ok o) ↔ kernelsOf i log = grid.history params count)) ∧
    ∀ o, result = .ok o → o = .grid (grid.after count) ∧ .polled i ∈ log ∧
      .device i false ∉ log ∧ kernelsOf i log = grid.history params count
  yields : .created i ∈ w.log → kernelsOf i w.log = grid.history params count →
    ∀ (t : Task P α) c, w.tasks[i]? = some t → t.control = .active c ∨ t.control = .suspended c →
      ∃ n, Yields w i grid count params (.poll i :: List.replicate n (.tick i .ok))

/-- In every run, whatever the polls, the drops and the failures, every future of `advance_async`
keeps the protocol of its batch; each step changes the halves over and counts once. -/
theorem batches_keep_protocol (memory : Addr → α) (inputs : List (Input P α)) (i : ℕ)
    (grid : DoubleGrid P) (count : ℕ) (params : JacobiParams α) (args : List (Bool × List α)) :
    let w := (World.init P memory).run inputs
    (∃ after before, w.log = after ++ .called i (.advanceAsync grid count params) args :: before) →
    Keeps w i grid count params args ∧ ∀ k,
      (grid.after k).completed = grid.completed + k ∧ (grid.after k).rhs = grid.rhs ∧
      ((grid.after k).current = grid.current ∧ (grid.after k).next = grid.next ∨
        (grid.after k).current = grid.next ∧ (grid.after k).next = grid.current) ∧
      (grid.after (k + 1)).current = (grid.after k).next ∧
      (grid.after (k + 1)).next = (grid.after k).current := by
  intro w hb
  have h : w.Inv := World.inv_run (World.inv_init memory) inputs
  have hevent : ∀ {e : Event P α} {log}, e :: log <:+ w.log → e.Good log ∧ GoodLog log := by
    rintro e log ⟨es, hes⟩
    exact (hes ▸ h.good).of_append
  have hbatch : ∀ {e : Event P α} {log r before u m}, e :: log <:+ w.log → Told log i r before u m →
      Batch log i grid count params args :=
    fun hsuffix ht => Batch.of_told hb h.good ((List.suffix_cons ..).trans hsuffix) ht
  refine ⟨?_, fun k => ⟨DoubleGrid.after_completed, DoubleGrid.after_rhs, DoubleGrid.after_halves,
    congrArg DoubleGrid.current DoubleGrid.after_succ,
    congrArg DoubleGrid.next DoubleGrid.after_succ⟩⟩
  constructor
  · intro l log hsuffix
    obtain ⟨hgood, hlog⟩ := hevent hsuffix
    obtain ⟨r, before, u, m, ht, hbegins⟩ := hgood
    exact (hbatch hsuffix ht).submits hlog ⟨r, before, u, m, ht, hbegins⟩
  · intro l log hsuffix
    obtain ⟨⟨-, ⟨ks, hks⟩, -⟩, hlog⟩ := hevent hsuffix
    -- The launch was submitted by the batch.
    obtain ⟨after, older, hsplit⟩ :=
      List.append_of_mem (submitted_of_kernelsOf (hks ▸ List.mem_cons_self))
    have hsubmitted : GoodLog (after ++ .submitted i l :: older) := hsplit ▸ hlog
    obtain ⟨r, before, u, m, ht, -⟩ := hsubmitted.good
    have ht' : Told log i r before u m := by
      have happend := ht.append (after ++ [.submitted i l])
      rwa [List.append_assoc, List.singleton_append, ← hsplit] at happend
    have hstage := (hbatch hsuffix ht').stage hlog
    rw [hks] at hstage
    obtain ⟨k, hk, hl, rfl⟩ := hstage.of_submitted
    exact ⟨k, hk, hl, hks⟩
  · exact Batch.stage hb h.good
  · intro n n' f f' hf hf' htask htask' hrun hrun'
    exact flight_unique h hf hf' htask htask' hrun hrun'
  · intro n b f a hf htask ha
    exact Batch.writes hb h hf htask b ha
  · intro t n hi hpending hcontrol
    have hgood := h.tasks i t hi
    cases hc : t.control with
    | active c | suspended c | forgotten c =>
      simp only [Task.Good, hc] at hgood
      exact Batch.flies hb h hgood.1 hpending
    | unwinding => exact absurd hc hcontrol
    | finished =>
      simp only [Task.Good, hc] at hgood
      cases hgood.2.1.symm.trans hpending
  · intro hcreated t hi
    rcases Batch.held hb h hcreated hi with hending | hres
    · exact .inl hending
    · obtain ⟨after, before, hcalled⟩ := hb
      obtain ⟨-, u, m, -, hpre, -⟩ := (hcalled ▸ h.good).good
      have hkept : grid.Kept := hpre.kept (.grid grid) List.mem_cons_self
      exact .inr ⟨hres, fun b hbudget => charged_of_held h hi hres hkept hbudget⟩
  · intro r result args' stored log hsuffix
    obtain ⟨hgood, hlog⟩ := hevent hsuffix
    obtain ⟨before, u, m, ht, hends⟩ := hgood
    exact (hbatch hsuffix ht).returned hlog ⟨before, u, m, ht, hends⟩
  · intro hcreated hdone t c hi hc
    exact Batch.yields_poll hb h hcreated hdone hi hc

/-- A batch of one step, polled once: its kernel is in flight. -/
def pendingCell : List (Input ⟨64, Platform.le_64⟩ ℚ) :=
  .newGpu 0 .gridCell ::
  .call (.doubleGrid 0 Shape2D.cell [1, 2, 3, 4, 5, 6, 7, 8, 9] [1]) ::
  List.replicate 31 (.tick 0 .ok) ++ .call (.advanceAsync 0 1 ⟨1 / 2, 1⟩) ::
  List.replicate 8 (.tick 1 .ok) ++ .poll 1 :: List.replicate 12 (.tick 1 .ok)

/-- The second call starts a batch. -/
def Event.startsBatch : Event P α → Bool
  | .called 1 (.advanceAsync ..) _ => true
  | _ => false

theorem batches_keep_protocol_cell : ∃ grid count params args,
    Keeps ((World.init _ fun _ => 0).run pendingCell) 1 grid count params args := by
  have hsome : ((World.init _ fun _ => 0).run pendingCell).log.any Event.startsBatch = true := by
    decide +kernel
  obtain ⟨e, he, hcalled⟩ := List.any_eq_true.mp hsome
  unfold Event.startsBatch at hcalled
  split at hcalled
  · obtain ⟨after, before, hlog⟩ := List.append_of_mem he
    exact ⟨_, _, _, _, (batches_keep_protocol _ _ 1 _ _ _ _ ⟨after, before, hlog⟩).1⟩
  · cases hcalled

end Batches
end Gudra
