import Gudra.Budgets

/-! Moves of a task that change no contents. -/
namespace Gudra

open Scope Interleave

variable {P : Platform} {α : Type}

/-- The event changes neither contents nor executions nor records. -/
def Event.Quiet : Event P α → Prop
  | uploaded .. | submitted .. | completed .. | failed .. | returned .. => False
  | _ => True

section Quiet

variable {es log : List (Event P α)} {i : ℕ}

theorem gridRecord_quiet (hq : ∀ e ∈ es, e.Quiet) : gridRecord (es ++ log) = gridRecord log := by
  induction es with
  | nil => rfl
  | cons e es ih =>
    have he := hq e List.mem_cons_self
    have hes := ih fun e he => hq e (List.mem_cons_of_mem _ he)
    cases e with
    | returned => exact he.elim
    | _ => exact hes

theorem kernelsOf_quiet (hq : ∀ e ∈ es, e.Quiet) : kernelsOf i (es ++ log) = kernelsOf i log := by
  induction es with
  | nil => rfl
  | cons e es ih =>
    have he := hq e List.mem_cons_self
    have hes := ih fun e he => hq e (List.mem_cons_of_mem _ he)
    rw [List.cons_append, kernelsOf_of_none, hes]
    cases e with
    | submitted | completed | failed => exact he.elim
    | _ => rfl

theorem status_quiet [Scalar α] (hq : ∀ e ∈ es, e.Quiet) : status (es ++ log) = status log := by
  induction es with
  | nil => rfl
  | cons e es ih =>
    have he := hq e List.mem_cons_self
    have hes := ih fun e he => hq e (List.mem_cons_of_mem _ he)
    cases e with
    | uploaded | submitted | completed | failed => exact he.elim
    | _ => exact hes

end Quiet

namespace World

/-- A move of task `i` from `t` to `t'` that changes no contents. -/
structure Quiet (w w' : World P α) (i : ℕ) (t t' : Task P α) : Prop where
  tasks_eq : w'.tasks = w.tasks.set i t'
  owners_eq : w'.owners = w.owners
  leaked_eq : w'.leaked = w.leaked
  nextOwner_eq : w'.nextOwner = w.nextOwner
  memory_eq : w'.memory = w.memory
  uncertain_eq : w'.uncertain = w.uncertain
  flights_eq : w'.flights = w.flights
  next_eq : w'.nextStorage = w.nextStorage
  sessions : ∀ s, w'.session? s = w.session? s
  log : ∃ es, w'.log = es ++ w.log ∧ ∀ e ∈ es, e.task = i ∧ e.Quiet
  borrows : t'.shared = t.shared ∧ t'.lent = t.lent ∨ t'.shared = [] ∧ t'.lent = []
  resources : (ids t'.frames.resources).Subperm (ids t.frames.resources)
  accounts : ∀ xs, w.Accounted (t.frames.resources ++ xs) → w'.Accounted (t'.frames.resources ++ xs)
  pending : t'.pending = t.pending ∨
    ∀ (n : ℕ) (f : Flight α), t.pending = some n → w.flights[n]? = some f → f.state ≠ .running

section Quiet

variable [Scalar α] {w w' : World P α} {i : ℕ} {t t' : Task P α} {g g' : Ghost α}

theorem Quiet.status_eq (hq : Quiet w w' i t t') : status w'.log = status w.log := by
  obtain ⟨es, hes, hquiet⟩ := hq.log
  rw [hes, status_quiet fun e he => (hquiet e he).2]

omit [Scalar α] in
theorem Quiet.record_eq (hq : Quiet w w' i t t') : gridRecord w'.log = gridRecord w.log := by
  obtain ⟨es, hes, hquiet⟩ := hq.log
  rw [hes, gridRecord_quiet fun e he => (hquiet e he).2]

omit [Scalar α] in
theorem Quiet.kernels_eq (hq : Quiet w w' i t t') : kernelsOf i w'.log = kernelsOf i w.log := by
  obtain ⟨es, hes, hquiet⟩ := hq.log
  rw [hes, kernelsOf_quiet fun e he => (hquiet e he).2]

theorem Quiet.spares (hq : Quiet w w' i t t') (own : List ℕ) : Spares w w' i own where
  log := by
    obtain ⟨es, hes, hquiet⟩ := hq.log
    exact ⟨es, hes, fun e he => (hquiet e he).1⟩
  next := hq.next_eq.ge
  status_eq _ _ _ := congrFun hq.status_eq _
  uncertain_eq _ _ _ := congrFun hq.uncertain_eq _
  memory_eq _ _ _ _ := congrFun hq.memory_eq _
  record_eq _ _ _ := congrFun hq.record_eq _
  sessions s x hx := (hq.sessions s).trans hx
  flights n f _ hf := hq.flights_eq ▸ hf

/-- The buffers that a task may change are readable unless their flag says otherwise. -/
theorem Inv.lent_ready (h : w.Inv) (hi : w.tasks[i]? = some t) {x : ℕ × Buffer P}
    (hx : x ∈ t.lent) (hu : w.uncertain x.2.id = false) :
    (Ghost.start w.log w.uncertain).Ready x.2.tensor.storage := by
  obtain ⟨y, hy, -, -, hbuffers⟩ := h.borrow (List.mem_of_getElem? hi) (List.mem_append_right _ hx)
  have hready := (h.owners y hy).ready
  obtain ⟨n, o⟩ := y
  obtain ⟨m, b⟩ := x
  cases o with
  | halo d =>
    cases hbuffers
    exact hready hu
  | field d =>
    cases hbuffers
    exact hready hu
  | grid d => exact absurd hbuffers (by simp [Owner.buffers, DoubleGrid.buffers])

/-- A running kernel belongs to another task, or the task waits for it. -/
theorem Inv.flight_cases (h : w.Inv) (hi : w.tasks[i]? = some t) {n : ℕ} {f : Flight α}
    (hf : w.flights[n]? = some f) (hrun : f.state = .running) :
    f.task ≠ i ∧ w.flights[n]? = some f ∨ f.task = i ∧ t.pending = some n := by
  by_cases hne : f.task = i
  · obtain ⟨t₀, ht₀, hp⟩ := h.flights n f hf hrun
    rw [hne, hi] at ht₀
    exact .inr ⟨hne, Option.some.inj ht₀ ▸ hp⟩
  · exact .inl ⟨hne, hf⟩

/-- A quiet move keeps the invariant. -/
theorem Quiet.inv (hq : Quiet w w' i t t') (h : w.Inv) (hi : w.tasks[i]? = some t)
    (hgood : GoodLog w'.log) (htask : t'.Good w' i) : w'.Inv := by
  suffices hl : Local w w' i t t' from hl.inv hi h
  refine ⟨hq.spares _, hq.tasks_eq, hq.owners_eq, hq.leaked_eq, hq.nextOwner_eq, hq.borrows, hgood,
    ?_, ?_, ?_, hq.accounts, ?_, htask, ?_⟩
  · intro id hid
    rw [hq.next_eq] at hid
    rw [hq.status_eq]
    exact h.absent id hid
  · intro id data _ hid
    rw [hq.status_eq] at hid
    rw [hq.memory_eq]
    exact h.holds id data hid
  · rw [hq.next_eq, Nat.sub_self]
    exact hq.resources
  · intro x hx hu
    rw [hq.uncertain_eq] at hu
    obtain ⟨data, hdata, hlen⟩ := h.lent_ready hi hx hu
    exact ⟨data, (congrFun hq.status_eq _).trans hdata, hlen⟩
  · intro n f hf hrun
    rw [hq.flights_eq] at hf
    rcases h.flight_cases hi hf hrun with hother | ⟨hself, hp⟩
    · exact .inl hother
    · rcases hq.pending with hpending | hidle
      · exact .inr ⟨hself, hpending.trans hp⟩
      · exact absurd hrun (hidle n f hp hf)

/-- The other allocations of a task are new. -/
theorem Spares.runs_self (hs : Spares w w' i t.exclusive) {r : Request P α} {before : List (Event P α)}
    {u : ℕ → Bool} {m : Addr → α} (hr : Runs w i t r before u m) (hrequest : t'.request = t.request)
    (hshared : t'.shared = t.shared) (hlent : t'.lent = t.lent)
    (hreach : ∀ id ∈ t'.reach, id ∈ t.reach ∨ w.nextStorage ≤ id) (halive : .cancelled i ∉ w'.log)
    (hmemory : kernelsOf i w'.log = [] → kernelsOf i w.log = [] ∧
      ∀ b ∈ r.borrowed, ∀ n, w'.memory (b.id, n) = w.memory (b.id, n))
    (hrecord : gridRecord w'.log = gridRecord w.log) : Runs w' i t' r before u m where
  request_eq := hrequest.trans hr.request_eq
  told := hs.told hr.told
  shared_eq := hshared ▸ hr.shared_eq
  lent_eq := hlent ▸ hr.lent_eq
  known x hx := hs.sessions _ _ (hr.known x hx)
  bound b hb := lt_of_lt_of_le (hr.bound b hb) hs.next
  alive := halive
  memory_eq hk b hb n := by
    obtain ⟨hk, hm⟩ := hmemory hk
    exact (hm b hb n).trans (hr.memory_eq hk b hb n)
  record_eq d hd hid := by
    have hmem : d.rhs.storage ∈ r.buffers := by
      rw [← Request.named_buffers]
      exact List.mem_flatMap.mpr ⟨_, hd, mem_grid_buffers.mpr (.inr (.inr rfl))⟩
    have hbound := hr.bound _ hmem
    rcases hreach _ hid with hid | hid
    · exact (congrFun hrecord _).trans (hr.record_eq d hd hid)
    · exact absurd hbound (not_lt.mpr hid)

omit [Scalar α] in
/-- Less is within reach when resources are dropped. -/
theorem Quiet.reach_sub (hq : Quiet w w' i t t') (hshared : t'.shared = t.shared)
    (hlent : t'.lent = t.lent) : ∀ id ∈ t'.reach, id ∈ t.reach := by
  intro id hid
  simp only [Task.reach, Task.exclusive, hshared, hlent, List.mem_append] at hid ⊢
  rcases hid with (hid | hid) | hid
  · exact .inl (.inl (hq.resources.subset hid))
  · exact .inl (.inr hid)
  · exact .inr hid

theorem Quiet.runs (hq : Quiet w w' i t t') {r : Request P α} {before : List (Event P α)}
    {u : ℕ → Bool} {m : Addr → α} (hr : Runs w i t r before u m) (hrequest : t'.request = t.request)
    (hshared : t'.shared = t.shared) (hlent : t'.lent = t.lent) (halive : .cancelled i ∉ w'.log) :
    Runs w' i t' r before u m := by
  refine (hq.spares _).runs_self hr hrequest hshared hlent ?_ halive ?_ hq.record_eq
  · exact fun id hid => .inl (hq.reach_sub hshared hlent id hid)
  · intro hk
    rw [hq.kernels_eq] at hk
    exact ⟨hk, fun b _ n => congrFun hq.memory_eq _⟩

/-- What a task knows after a quiet move, where it also learns of the new events. -/
theorem Quiet.learns (hq : Quiet w w' i t t') (hk : Knows w i t.reach g)
    (hshared : t'.shared = t.shared) (hlent : t'.lent = t.lent) (hstatus : g'.status = g.status)
    (huncertain : g'.uncertain = g.uncertain) (hkernels : g'.kernels = g.kernels)
    (hpolled : g'.polled = true ↔ .created i ∈ w'.log)
    (hstopped : g'.stopped = true ↔ .device i false ∈ w'.log)
    (hrefused : ∀ e, g'.refused = some e → g.refused = some e ∨
      ∃ s, .reserved i s (.error e) ∈ w'.log) : Knows w' i t'.reach g' where
  status_eq id hid := by
    rw [hstatus, hq.status_eq]
    exact hk.status_eq id (hq.reach_sub hshared hlent id hid)
  uncertain_eq id hid := by
    rw [huncertain, hq.uncertain_eq]
    exact hk.uncertain_eq id (hq.reach_sub hshared hlent id hid)
  kernels_eq := hq.kernels_eq.trans (hk.kernels_eq.trans hkernels.symm)
  polled := hpolled
  stopped := hstopped
  refused e he := by
    rcases hrefused e he with he | he
    · obtain ⟨s, hs⟩ := hk.refused e he
      exact ⟨s, (hq.spares []).mem_log hs⟩
    · exact he

/-- What a task knows after a quiet move. -/
theorem Quiet.knows (hq : Quiet w w' i t t') (hk : Knows w i t.reach g)
    (hshared : t'.shared = t.shared) (hlent : t'.lent = t.lent)
    (hcreated : .created i ∈ w'.log → .created i ∈ w.log)
    (hdevice : .device i false ∈ w'.log → .device i false ∈ w.log) : Knows w' i t'.reach g := by
  refine hq.learns hk hshared hlent rfl rfl rfl ?_ ?_ fun e he => .inl he
  · exact hk.polled.trans ⟨(hq.spares []).mem_log, hcreated⟩
  · exact hk.stopped.trans ⟨(hq.spares []).mem_log, hdevice⟩

/-! ### Code that runs -/

variable {r : Request P α} {before : List (Event P α)} {u : ℕ → Bool} {m : Addr → α}
  {c c' : Script α (Except Error (Outcome P α))} {e : Effect α}

/-- Code that does not execute a kernel waits for none. -/
theorem Goes.idle (hg : t.Goes w i c) (hne : ∀ s l k, c ≠ .eff (.execute s l) k) :
    t.pending = none ∧ ∃ r before u m g, Runs w i t r before u m ∧
      ((r.terms (Ghost.start before u)).logic P).wp c (r.post (Ghost.start before u)) t.frames g ∧
      r.inv t.frames g ∧ Knows w i t.reach g := by
  obtain ⟨r, before, u, m, g, hr, hwp, hinv, hp⟩ := hg
  cases hpending : t.pending with
  | none =>
    rw [hpending] at hp
    exact ⟨rfl, r, before, u, m, g, hr, hwp, hinv, hp⟩
  | some n =>
    rw [hpending] at hp
    obtain ⟨s, l, k, hc, -⟩ := hp
    exact absurd hc (hne s l k)

theorem Runs.goes (hr : Runs w i t r before u m) (hpending : t.pending = none)
    (hwp : ((r.terms (Ghost.start before u)).logic P).wp c (r.post (Ghost.start before u))
      t.frames g) (hinv : r.inv t.frames g) (hk : Knows w i t.reach g) : t.Goes w i c := by
  refine ⟨r, before, u, m, g, hr, hwp, hinv, ?_⟩
  rw [hpending]
  exact hk

theorem Runs.waits (hr : Runs w i t r before u m) {n s : ℕ} {l : Launch α}
    {k : Except String Unit → Script α (Except Error (Outcome P α))} (hpending : t.pending = some n)
    (hwp : ((r.terms (Ghost.start before u)).logic P).wp (.eff (.execute s l) k)
      (r.post (Ghost.start before u)) t.frames g)
    (hinv : r.inv t.frames g) (hw : Waits w i n t g l) : t.Goes w i (.eff (.execute s l) k) := by
  refine ⟨r, before, u, m, g, hr, hwp, hinv, ?_⟩
  rw [hpending]
  exact ⟨s, l, k, rfl, hw⟩

theorem good_active (hc : t.control = .active c) :
    t.Good w i ↔ t.Goes w i c ∧ (.created i ∈ w.log → .polled i ∈ w.log) := by
  simp only [Task.Good, hc]

theorem Inv.active (h : w.Inv) (hi : w.tasks[i]? = some t) (hc : t.control = .active c) :
    t.Goes w i c ∧ (.created i ∈ w.log → .polled i ∈ w.log) :=
  (good_active hc).mp (h.tasks i t hi)

/-- A quiet move after which the code goes on. -/
theorem Quiet.goes (hq : Quiet w w' i t t') (h : w.Inv) (hi : w.tasks[i]? = some t)
    (hold : t.control = .active c) (hnew : t'.control = .active c') (hpending : t'.pending = none)
    (hrequest : t'.request = t.request) (hshared : t'.shared = t.shared) (hlent : t'.lent = t.lent)
    (hcreated : .created i ∈ w'.log → .created i ∈ w.log)
    (hcancelled : .cancelled i ∈ w'.log → .cancelled i ∈ w.log) (hgood : GoodLog w'.log)
    (hr : Runs w i t r before u m)
    (hwp : ((r.terms (Ghost.start before u)).logic P).wp c' (r.post (Ghost.start before u))
      t'.frames g') (hinv : r.inv t'.frames g') (hk : Knows w' i t'.reach g') : w'.Inv := by
  have hpolled := (h.active hi hold).2
  refine hq.inv h hi hgood ((good_active hnew).mpr ⟨?_, fun hc => ?_⟩)
  · refine Runs.goes (m := m) ?_ hpending hwp hinv hk
    exact hq.runs hr hrequest hshared hlent fun hc => hr.alive (hcancelled hc)
  · exact (hq.spares []).mem_log (hpolled (hcreated hc))

omit [Scalar α] in
/-- One resource of the task is dropped. -/
theorem quiet_release {d : Option Atom}
    (hperm : t.frames.resources.Perm (d.toList ++ t'.frames.resources))
    (hshared : t'.shared = t.shared) (hlent : t'.lent = t.lent) (hpending : t'.pending = t.pending) :
    Quiet w ((w.release d).setTask i t') i t t' where
  tasks_eq := congrArg (List.set · i t') (release_tasks w d)
  owners_eq := release_owners w d
  leaked_eq := release_leaked w d
  nextOwner_eq := release_nextOwner w d
  memory_eq := release_memory w d
  uncertain_eq := release_uncertain w d
  flights_eq := release_flights w d
  next_eq := release_nextStorage w d
  sessions s := session?_release d
  log := ⟨[], release_log w d, fun _ he => absurd he List.not_mem_nil⟩
  borrows := .inl ⟨hshared, hlent⟩
  resources := by
    have hids := ids_perm hperm
    rw [ids_append] at hids
    exact (List.sublist_append_right _ _).subperm.trans hids.symm.subperm
  accounts xs hxs := by
    have hdrop := hxs.perm (hperm.append_right xs)
    rw [List.append_assoc] at hdrop
    exact hdrop.release.congr rfl
  pending := .inl hpending

/-- Moves between scopes and drops. -/
theorem inv_internal (h : w.Inv) (hi : w.tasks[i]? = some t) (hc : t.control = .active c)
    {d : Option Atom} {frames : Frames Name Atom} (hint : c.internal t.frames = some (d, c', frames)) :
    ((w.release d).setTask i { t with frames, control := .active c' }).Inv := by
  have hne : ∀ s l k, c ≠ .eff (.execute s l) k := by
    rintro s l k rfl
    cases hint
  obtain ⟨hpending, r, before, u, m, g, hr, hwp, hinv, hk⟩ := Goes.idle (h.active hi hc).1 hne
  have hperm := internal_perm hint
  have hq : Quiet w ((w.release d).setTask i { t with frames, control := .active c' }) i t
      { t with frames, control := .active c' } := quiet_release hperm rfl rfl rfl
  obtain ⟨hwp', hinv'⟩ := Logic.wp_internal hwp hint
  have hlog : ((w.release d).setTask i { t with frames, control := .active c' }).log = w.log :=
    release_log w d
  refine hq.goes h hi hc rfl hpending rfl rfl rfl ?_ ?_ ?_ hr hwp' hinv' ?_
  · rw [hlog]
    exact id
  · rw [hlog]
    exact id
  · rw [hlog]
    exact h.good
  · refine hq.knows hk rfl rfl ?_ ?_
    all_goals
      rw [hlog]
      exact id

omit [Scalar α] in
/-- Events and a new control state. -/
theorem quiet_events (es : List (Event P α)) (hes : ∀ e ∈ es, e.task = i ∧ e.Quiet)
    (hframes : t'.frames = t.frames) (hshared : t'.shared = t.shared) (hlent : t'.lent = t.lent)
    (hpending : t'.pending = t.pending ∨
      ∀ (n : ℕ) (f : Flight α), t.pending = some n → w.flights[n]? = some f → f.state ≠ .running) :
    Quiet w ({ w with log := es ++ w.log }.setTask i t') i t t' where
  tasks_eq := rfl
  owners_eq := rfl
  leaked_eq := rfl
  nextOwner_eq := rfl
  memory_eq := rfl
  uncertain_eq := rfl
  flights_eq := rfl
  next_eq := rfl
  sessions _ := rfl
  log := ⟨es, rfl, hes⟩
  borrows := .inl ⟨hshared, hlent⟩
  resources := hframes ▸ List.Subperm.refl _
  accounts _ hxs := hframes ▸ hxs.congr rfl
  pending := hpending

omit [Scalar α] in
/-- A new control state. -/
theorem quiet_control (hframes : t'.frames = t.frames) (hshared : t'.shared = t.shared)
    (hlent : t'.lent = t.lent) (hpending : t'.pending = t.pending ∨
      ∀ (n : ℕ) (f : Flight α), t.pending = some n → w.flights[n]? = some f → f.state ≠ .running) :
    Quiet w (w.setTask i t') i t t' :=
  quiet_events [] (fun _ he => absurd he List.not_mem_nil) hframes hshared hlent hpending

omit [Scalar α] in
theorem quiet_admit (i : ℕ) (t t' : Task P α) {w₁ : World P α} {s : ℕ} {b : Budget P}
    {rep : Except Error Reservation}
    (hw : w₁ = (w.setBudget s b).record (.reserved i s rep))
    (hids : (ids t'.frames.resources).Perm (ids t.frames.resources))
    (haccounts : ∀ xs, w.Accounted (t.frames.resources ++ xs) →
      w₁.Accounted (t'.frames.resources ++ xs))
    (hshared : t'.shared = t.shared) (hlent : t'.lent = t.lent) (hpending : t'.pending = t.pending) :
    Quiet w (w₁.setTask i t') i t t' := by
  subst hw
  refine ⟨rfl, rfl, rfl, rfl, rfl, rfl, rfl, rfl, fun s' => session?_setBudget,
    ⟨[.reserved i s rep], rfl, fun e he => ?_⟩, .inl ⟨hshared, hlent⟩, ?_, ?_, .inl hpending⟩
  · obtain rfl := List.mem_singleton.mp he
    exact ⟨rfl, trivial⟩
  · exact hids.subperm
  · exact fun _ hxs => (haccounts _ hxs).congr rfl

/-- A panic. -/
theorem inv_panic (h : w.Inv) (hi : w.tasks[i]? = some t) (hpending : t.pending = none) :
    (w.setTask i { t with control := .unwinding }).Inv := by
  have hq : Quiet w (w.setTask i { t with control := .unwinding }) i t
      { t with control := .unwinding } :=
    quiet_control rfl rfl rfl (.inl rfl)
  refine hq.inv h hi h.good ?_
  intro n hn
  exact nomatch hpending.symm.trans hn

/-- Admission answers. -/
theorem inv_admit (h : w.Inv) (hi : w.tasks[i]? = some t) (hc : t.control = .active c)
    (hne : ∀ s l k, c ≠ .eff (.execute s l) k) {w₁ : World P α} {s : ℕ}
    {rep : Except Error Reservation} {res : Reservation} {x : Name}
    {k : Except Error Reservation → Script α (Except Error (Outcome P α))} {gain : Frame Name Atom}
    (hadmits : Admits w w₁ i s rep res)
    (hok : rep = .ok res → gain = [(x, .reservation res)]) (herr : ∀ e, rep = .error e → gain = [])
    (hspec : ∀ (C : Terms α) Q g, (C.logic P).wp c Q t.frames g → s = C.session ∧
      (∀ e, C.inv t.frames (g.refuse e) ∧ (C.logic P).wp (k (.error e)) Q t.frames (g.refuse e)) ∧
      C.inv (Frames.push [(x, .reservation res)] t.frames) g ∧
      (C.logic P).wp (k (.ok res)) Q (Frames.push [(x, .reservation res)] t.frames) g) :
    (w₁.setTask i
      { t with frames := Frames.push gain t.frames, control := .active (k rep) }).Inv := by
  obtain ⟨hpending, r, before, u, m, g, hr, hwp, hinv, hk⟩ := Goes.idle (h.active hi hc).1 hne
  obtain ⟨hsession, hrefused, hinv', hwp'⟩ := hspec _ _ _ hwp
  obtain ⟨b, hw⟩ := hadmits.world_eq
  have hlog : w₁.log = .reserved i s rep :: w.log := by rw [hw]; rfl
  have hgood : GoodLog w₁.log := by
    rw [hlog]
    exact ⟨⟨r, before, u, m, hr.told, hsession⟩, h.good⟩
  have hcreated : .created i ∈ w₁.log → .created i ∈ w.log := by
    rw [hlog]
    intro hmem
    exact (List.mem_cons.mp hmem).resolve_left nofun
  have hcancelled : .cancelled i ∈ w₁.log → .cancelled i ∈ w.log := by
    rw [hlog]
    intro hmem
    exact (List.mem_cons.mp hmem).resolve_left nofun
  have hdevice : .device i false ∈ w₁.log → .device i false ∈ w.log := by
    rw [hlog]
    intro hmem
    exact (List.mem_cons.mp hmem).resolve_left nofun
  rcases hadmits.answer with ⟨⟨e, rfl⟩, haccounts⟩ | ⟨rfl, haccounts⟩
  · obtain rfl := herr e rfl
    have hq := quiet_admit i t
      { t with frames := Frames.push [] t.frames, control := .active (k (.error e)) } hw (.refl _)
      (fun _ hxs => haccounts _ hxs) rfl rfl rfl
    refine hq.goes h hi hc rfl hpending rfl rfl rfl hcreated hcancelled hgood hr (hrefused e).2
      (hrefused e).1 ?_
    refine hq.learns hk rfl rfl rfl rfl rfl ?_ ?_ fun e' he => ?_
    · exact hk.polled.trans ⟨(hq.spares []).mem_log, hcreated⟩
    · exact hk.stopped.trans ⟨(hq.spares []).mem_log, hdevice⟩
    · obtain rfl := Option.some.inj he
      exact .inr ⟨s, hlog ▸ List.mem_cons_self⟩
  · obtain rfl := hok rfl
    have hpush := push_perm [(x, Atom.reservation res)] t.frames
    have hq := quiet_admit i t
      { t with frames := Frames.push [(x, .reservation res)] t.frames, control := .active (k (.ok res)) }
      hw ((ids_perm hpush).trans (.of_eq ids_reservation))
      (fun xs hxs => (haccounts _ hxs).perm (hpush.append_right xs).symm) rfl rfl rfl
    refine hq.goes h hi hc rfl hpending rfl rfl rfl hcreated hcancelled hgood hr hwp' hinv' ?_
    exact hq.knows hk rfl rfl hcreated hdevice

theorem exclusive_eq (hr : Runs w i t r before u m) (g₀ : Ghost α) :
    (r.terms g₀).exclusive t.frames = t.exclusive := by
  simp only [Terms.exclusive, Request.terms, Task.exclusive, ← hr.lent_eq, List.map_map]
  rfl

theorem reach_eq (hr : Runs w i t r before u m) (g₀ : Ghost α) :
    (r.terms g₀).reach t.frames = t.reach := by
  rw [Terms.reach, Task.reach, exclusive_eq hr]
  simp only [Request.terms, ← hr.shared_eq, List.map_map]
  rfl

/-- What a task reads in memory is what it knows. -/
theorem Knows.contents_eq (h : w.Inv) {reach : List ℕ} (hk : Knows w i reach g) {s : Storage}
    (hs : s.id ∈ reach) (hready : g.Ready s) : contents w.memory s = g.data s := by
  obtain ⟨data, hdata, hlen⟩ := hready
  have hstatus := (hk.status_eq _ hs).symm.trans hdata
  rw [(h.holds _ _ hstatus).contents_eq hlen, Ghost.data_of_status hdata]

/-- The environment answers without an effect on the task's resources. -/
theorem inv_reply (h : w.Inv) (hi : w.tasks[i]? = some t) (hc : t.control = .active c)
    (hne : ∀ s l k, c ≠ .eff (.execute s l) k) {es : List (Event P α)}
    (hes : ∀ e ∈ es, ∃ b, e = .device i b)
    (hspec : ∀ r before u m g, Runs w i t r before u m → Knows w i t.reach g →
      ((r.terms (Ghost.start before u)).logic P).wp c (r.post (Ghost.start before u)) t.frames g →
      (∀ e ∈ es, r.check u = .ok ()) ∧
      ∃ g', (g' = g ∧ .device i false ∉ es ∨ g' = g.stop ∧ .device i false ∈ es) ∧ r.inv t.frames g' ∧
        ((r.terms (Ghost.start before u)).logic P).wp c' (r.post (Ghost.start before u))
          t.frames g') :
    ({ w with log := es ++ w.log }.setTask i { t with control := .active c' }).Inv := by
  obtain ⟨hpending, r, before, u, m, g, hr, hwp, -, hk⟩ := Goes.idle (h.active hi hc).1 hne
  obtain ⟨hcheck, g', hg', hinv', hwp'⟩ := hspec r before u m g hr hk hwp
  have hq : Quiet w ({ w with log := es ++ w.log }.setTask i { t with control := .active c' }) i t
      { t with control := .active c' } := by
    refine quiet_events es (fun e he => ?_) rfl rfl rfl (.inl rfl)
    obtain ⟨b, rfl⟩ := hes e he
    exact ⟨rfl, trivial⟩
  have hgood : GoodLog (es ++ w.log) := by
    clear hg' hspec hq
    induction es with
    | nil => exact h.good
    | cons e es ih =>
      have hrest := ih (fun e he => hes e (List.mem_cons_of_mem _ he))
        fun e he => hcheck e (List.mem_cons_of_mem _ he)
      obtain ⟨b, rfl⟩ := hes e List.mem_cons_self
      exact ⟨⟨r, before, u, m, hr.told.append es, hcheck _ List.mem_cons_self⟩, hrest⟩
  have hcreated : .created i ∈ es ++ w.log → .created i ∈ w.log := by
    intro hmem
    refine (List.mem_append.mp hmem).resolve_left fun hmem => ?_
    obtain ⟨b, hb⟩ := hes _ hmem
    cases hb
  have hcancelled : .cancelled i ∈ es ++ w.log → .cancelled i ∈ w.log := by
    intro hmem
    refine (List.mem_append.mp hmem).resolve_left fun hmem => ?_
    obtain ⟨b, hb⟩ := hes _ hmem
    cases hb
  refine hq.goes h hi hc rfl hpending rfl rfl rfl hcreated hcancelled hgood hr hwp' hinv' ?_
  rcases hg' with ⟨rfl, hdevice⟩ | ⟨rfl, hdevice⟩
  · exact hq.knows hk rfl rfl hcreated fun hmem => (List.mem_append.mp hmem).resolve_left hdevice
  · refine hq.learns hk rfl rfl rfl rfl rfl ?_ ?_ fun e he => .inl he
    · exact hk.polled.trans ⟨(hq.spares []).mem_log, hcreated⟩
    · exact ⟨fun _ => List.mem_append_left _ hdevice, fun _ => rfl⟩

/-- The future is handed out. -/
theorem inv_lazy (h : w.Inv) (hi : w.tasks[i]? = some t)
    {k : Unit → Script α (Except Error (Outcome P α))} (hc : t.control = .active (.eff .lazy k)) :
    ((w.record (.created i)).setTask i { t with control := .suspended (k ()) }).Inv := by
  obtain ⟨hpending, r, before, u, m, g, hr, ⟨hwork, -, hidle, hinv, hwp⟩, -, hk⟩ :=
    Goes.idle (h.active hi hc).1 nofun
  have hq : Quiet w ((w.record (.created i)).setTask i { t with control := .suspended (k ()) }) i t
      { t with control := .suspended (k ()) } := by
    refine quiet_events [.created i] (fun e he => ?_) rfl rfl rfl (.inl rfl)
    obtain rfl := List.mem_singleton.mp he
    exact ⟨rfl, trivial⟩
  refine hq.inv h hi ⟨⟨r, before, u, m, hr.told, hidle.1, hwork⟩, h.good⟩ ⟨?_, ?_, ?_⟩
  · refine Runs.goes (m := m) (g := { g with polled := true }) ?_ hpending hwp hinv ?_
    · exact hq.runs hr rfl rfl rfl fun hmem => hr.alive ((List.mem_cons.mp hmem).resolve_left nofun)
    · refine hq.learns hk rfl rfl rfl rfl rfl ?_ ?_ fun e he => .inl he
      · exact ⟨fun _ => List.mem_cons_self, fun _ => rfl⟩
      · refine hk.stopped.trans ⟨(hq.spares []).mem_log, fun hmem => ?_⟩
        exact (List.mem_cons.mp hmem).resolve_left nofun
  · exact List.mem_cons_self
  · exact ⟨r, hr.request_eq, hidle⟩

end Quiet
end World
end Gudra
