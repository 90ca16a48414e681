import Gudra.Admission
import Gudra.History

/-! What holds of the world between any two steps of a run. -/
namespace Gudra

open Scope Interleave

variable {P : Platform} {α : Type}

def Owner.atoms (o : Owner P) : List Atom := o.buffers.flatMap Buffer.atoms

def Owner.ids (o : Owner P) : List ℕ := o.buffers.map Buffer.id

theorem Owner.ids_atoms (o : Owner P) : Gudra.ids o.atoms = o.ids := by
  cases o <;> rfl

theorem Owner.resources_entries (o : Owner P) : Frames.resources [o.entries] = o.atoms := by
  cases o <;> rfl

namespace Task

variable (t : Task P α)

/-- The allocations that only this task may touch. -/
def exclusive : List ℕ := ids t.frames.resources ++ t.lent.map fun x => x.2.id

/-- The allocations that nobody else changes while this task runs. -/
def reach : List ℕ := t.exclusive ++ t.shared.map fun x => x.2.id

end Task

/-- The reservations of session `s` among resources. -/
def reservations (s : ℕ) (xs : List Atom) : List Reservation :=
  (xs.filterMap Atom.reservation?).filter fun r => r.budget = s

theorem reservations_perm {s : ℕ} {xs ys : List Atom} (h : xs.Perm ys) :
    (reservations s xs).Perm (reservations s ys) := (h.filterMap _).filter _

@[simp] theorem reservations_append {s : ℕ} {xs ys : List Atom} :
    reservations s (xs ++ ys) = reservations s xs ++ reservations s ys := by
  simp [reservations]

namespace World

/-- Every resource that is not yet dropped. -/
def atoms (w : World P α) : List Atom :=
  w.owners.flatMap (fun x => x.2.atoms) ++ w.leaked.flatMap Owner.atoms ++
    w.tasks.flatMap fun t => t.frames.resources

/-- Each budget accounts for exactly the reservations among these resources, and there are no
others. -/
def Accounted (w : World P α) (xs : List Atom) : Prop :=
  ∀ s, (∀ b, w.budget? s = some b → b.Accounts (reservations s xs)) ∧
    (w.budget? s = none → reservations s xs = [])

theorem Accounted.perm {w : World P α} {xs ys : List Atom} (h : w.Accounted xs)
    (hp : xs.Perm ys) : w.Accounted ys :=
  fun s => ⟨fun b hb => ((h s).1 b hb).perm (reservations_perm hp),
    fun hs => ((reservations_perm hp).symm.trans (.of_eq ((h s).2 hs))).eq_nil⟩

end World

/-- The kernel `l` is in flight. -/
def Ghost.submit (g : Ghost α) (l : Launch α) : Ghost α :=
  { g with
    status := Function.update g.status l.output.storage.id .busy
    kernels := .submitted l :: g.kernels }

variable [Scalar α]

/-- What task `i` believes is true of the world. -/
structure Knows (w : World P α) (i : ℕ) (reach : List ℕ) (g : Ghost α) : Prop where
  status_eq : ∀ id ∈ reach, g.status id = status w.log id
  uncertain_eq : ∀ id ∈ reach, g.uncertain id = w.uncertain id
  kernels_eq : kernelsOf i w.log = g.kernels
  polled : g.polled = true ↔ .created i ∈ w.log
  stopped : g.stopped = true ↔ .device i false ∈ w.log
  refused : ∀ e, g.refused = some e → ∃ s, .reserved i s (.error e) ∈ w.log

theorem Knows.congr {w w' : World P α} {i : ℕ} {reach : List ℕ} {g : Ghost α}
    (hk : Knows w i reach g) (hlog : w'.log = w.log) (hu : w'.uncertain = w.uncertain) :
    Knows w' i reach g := by
  obtain ⟨hstatus, huncertain, hkernels, hpolled, hstopped, hrefused⟩ := hk
  constructor
  all_goals simpa only [hlog, hu]

/-- Task `i` runs the call `r`, which started after `before` on the flags `u` and the memory `m`. -/
structure Runs (w : World P α) (i : ℕ) (t : Task P α) (r : Request P α) (before : List (Event P α))
    (u : ℕ → Bool) (m : Addr → α) : Prop where
  request_eq : t.request = some r
  told : Told w.log i r before u m
  shared_eq : t.shared.map Prod.snd = r.shared
  lent_eq : t.lent.map Prod.snd = r.lent
  known : ∀ s, s = r.session ∨ (∃ b ∈ r.buffers, b.session = s) → w.session? s.id = some s
  bound : ∀ b ∈ r.buffers, b.id < w.nextStorage
  alive : .cancelled i ∉ w.log
  memory_eq : kernelsOf i w.log = [] →
    ∀ b ∈ r.borrowed, ∀ n, w.memory (b.id, n) = m (b.id, n)
  record_eq : ∀ g, .grid g ∈ r.named → g.rhs.storage.id ∈ t.reach →
    gridRecord w.log g.rhs.storage.id = gridRecord before g.rhs.storage.id

/-- Where flight `n` of task `i` stands, which executes `l`; `g` is what the task knew before. -/
inductive Aloft (w : World P α) (i n : ℕ) (t : Task P α) (g : Ghost α) (l : Launch α) : Prop where
  | running (progs : List (Prog Addr α Unit)) (m₀ : Addr → α) (done : List (Addr × α))
      (flight : w.flights[n]? = some ⟨i, l, progs, .running⟩)
      (knows : Knows w i t.reach (g.submit l))
      (inputs_eq : ∀ x ∈ l.inputs, ∀ n, m₀ (x.storage.id, n) = w.memory (x.storage.id, n))
      (progress : Progress m₀ l.blocks done w.memory progs)
  | completed (progs : List (Prog Addr α Unit))
      (flight : w.flights[n]? = some ⟨i, l, progs, .completed⟩)
      (knows : Knows w i t.reach (g.succeed l))

/-- Task `i` waits for flight `n`. -/
structure Waits (w : World P α) (i n : ℕ) (t : Task P α) (g : Ghost α) (l : Launch α) : Prop where
  wellFormed : ∃ shape : Shape2D P, l.WellFormed shape
  inputs : ∀ x ∈ l.inputs, x.storage.id ∈ t.reach ∧ g.Ready x.storage
  output : l.output.storage.id ∈ t.exclusive
  uncertain : l.output.storage.id ∈ t.lent.map (fun x => x.2.id) →
    w.uncertain l.output.storage.id = true
  aloft : Aloft w i n t g l

/-- The code `c` is left of the call. -/
def Task.Goes (w : World P α) (i : ℕ) (t : Task P α)
    (c : Script α (Except Error (Outcome P α))) : Prop :=
  ∃ r before u m g, Runs w i t r before u m ∧
    ((r.terms (Ghost.start before u)).logic P).wp c (r.post (Ghost.start before u)) t.frames g ∧
    r.inv t.frames g ∧
    match t.pending with
    | none => Knows w i t.reach g
    | some n => ∃ s l k, c = .eff (.execute s l) k ∧ Waits w i n t g l

/-- A future between two polls holds its operation and its arguments. -/
def Task.Held (t : Task P α) : Prop :=
  ∃ r, t.request = some r ∧ r.isAsync = true ∧ t.frames.resources.Perm r.held

/-- The call of task `i`. -/
def Task.Called (w : World P α) (i : ℕ) (t : Task P α) : Prop :=
  ∃ r before u m, t.request = some r ∧ Told w.log i r before u m

def Task.Good (w : World P α) (i : ℕ) (t : Task P α) : Prop :=
  match t.control with
  | .active c => t.Goes w i c ∧ (.created i ∈ w.log → .polled i ∈ w.log)
  | .suspended c | .forgotten c => t.Goes w i c ∧ .created i ∈ w.log ∧ t.Held
  | .unwinding => ∀ n, t.pending = some n → t.lent = [] ∧ t.Held ∧ t.Called w i ∧
    ∃ g l, Waits w i n t g l
  | .finished => t.frames = [] ∧ t.pending = none ∧ t.shared = [] ∧ t.lent = []

structure Owner.Good (w : World P α) (o : Owner P) : Prop where
  kept : o.Kept
  ready : o.Ready (Ghost.start w.log w.uncertain)
  known : ∀ b ∈ o.buffers, w.session? b.session.id = some b.session
  recorded : ∀ g, o = .grid g → Recorded w.log g

omit [Scalar α] in
theorem Ghost.Ready.congr {g g' : Ghost α} {b : Buffer P} (h : g.Ready b.tensor.storage)
    (hs : g'.status b.id = g.status b.id) : g'.Ready b.tensor.storage := by
  obtain ⟨data, hdata, hlen⟩ := h
  exact ⟨data, hs.trans hdata, hlen⟩

omit [Scalar α] in
theorem Owner.Ready.congr {g g' : Ghost α} {o : Owner P}
    (h : o.Ready g) (hs : ∀ b ∈ o.buffers, g'.status b.id = g.status b.id)
    (hu : ∀ b ∈ o.buffers, g'.uncertain b.id = g.uncertain b.id) : o.Ready g' := by
  cases o with
  | halo d =>
    intro hf
    rw [hu d.storage List.mem_cons_self] at hf
    exact (h hf).congr (hs d.storage List.mem_cons_self)
  | field d =>
    intro hf
    rw [hu d.storage List.mem_cons_self] at hf
    exact (h hf).congr (hs d.storage List.mem_cons_self)
  | grid d => exact fun b hb => (h b hb).congr (hs b hb)

/-- A grid keeps its record while its allocations are left alone. -/
theorem Recorded.congr {log log' : List (Event P α)} {d : DoubleGrid P}
    (h : Recorded log d) (hs : ∀ b ∈ d.buffers, status log' b.id = status log b.id)
    (hr : gridRecord log' d.rhs.storage.id = gridRecord log d.rhs.storage.id) : Recorded log' d := by
  obtain ⟨r, hrec, hshape, hcount, hat⟩ := h
  have hcurrent := hs d.current.storage (mem_grid_buffers.mpr (.inl rfl))
  have hnext := hs d.next.storage (mem_grid_buffers.mpr (.inr (.inl rfl)))
  have hrhs := hs d.rhs.storage (mem_grid_buffers.mpr (.inr (.inr rfl)))
  refine ⟨r, hr.trans hrec, hshape, hcount, ?_, hat.current_len, ?_, hat.next_len, ?_, hat.rhs_len⟩
  · exact hcurrent.trans hat.current_eq
  · exact hnext.trans hat.next_eq
  · exact hrhs.trans hat.rhs_eq

namespace World

/-- The invariant of every run. -/
structure Inv (w : World P α) : Prop where
  good : GoodLog w.log
  logged : ∀ e ∈ w.log, e.task < w.tasks.length
  accounts : w.Accounted w.atoms
  nodup : (ids w.atoms).Nodup
  fresh : ∀ id ∈ ids w.atoms, id < w.nextStorage
  absent : ∀ id, w.nextStorage ≤ id → status w.log id = .absent
  holds : ∀ id data, status w.log id = .settled data → Holds w.memory id data
  names : (w.owners.map Prod.fst).Nodup
  named : ∀ x ∈ w.owners, x.1 < w.nextOwner
  owners : ∀ x ∈ w.owners, x.2.Good w
  leaked : ∀ o ∈ w.leaked, o.Kept
  borrows : ∀ t ∈ w.tasks, ∀ x ∈ t.shared ++ t.lent, ∃ o, (x.1, o) ∈ w.owners ∧ o.buffers = [x.2]
  lent : w.lent.Nodup
  apart : ∀ h ∈ w.lent, h ∉ w.shared
  tasks : ∀ (i : ℕ) (t : Task P α), w.tasks[i]? = some t → t.Good w i
  flights : ∀ (n : ℕ) (f : Flight α), w.flights[n]? = some f → f.state = .running →
    ∃ t, w.tasks[f.task]? = some t ∧ t.pending = some n

/-- What task `i` leaves alone: the allocations that are not its own, and the other tasks. -/
structure Spares (w w' : World P α) (i : ℕ) (own : List ℕ) : Prop where
  log : ∃ es, w'.log = es ++ w.log ∧ ∀ e ∈ es, e.task = i
  next : w.nextStorage ≤ w'.nextStorage
  status_eq : ∀ id, id ∉ own → id < w.nextStorage → status w'.log id = status w.log id
  uncertain_eq : ∀ id, id ∉ own → id < w.nextStorage → w'.uncertain id = w.uncertain id
  memory_eq : ∀ id, id ∉ own → id < w.nextStorage → ∀ n, w'.memory (id, n) = w.memory (id, n)
  record_eq : ∀ id, id ∉ own → id < w.nextStorage → gridRecord w'.log id = gridRecord w.log id
  sessions : ∀ s x, w.session? s = some x → w'.session? s = some x
  flights : ∀ (n : ℕ) (f : Flight α), f.task ≠ i → w.flights[n]? = some f → w'.flights[n]? = some f

section Spares

variable {w w' : World P α} {i j : ℕ} {own : List ℕ} {t : Task P α} {g : Ghost α} {l : Launch α}

theorem Spares.mem_log (h : Spares w w' i own) {e : Event P α} (he : e ∈ w.log) : e ∈ w'.log := by
  obtain ⟨es, hes, -⟩ := h.log
  rw [hes]
  exact List.mem_append_right _ he

theorem Spares.mem_log_iff (h : Spares w w' i own) {e : Event P α} (hne : e.task ≠ i) :
    e ∈ w'.log ↔ e ∈ w.log := by
  obtain ⟨es, hes, htask⟩ := h.log
  rw [hes, List.mem_append, or_iff_right]
  exact fun he => hne (htask e he)

theorem Spares.kernelsOf_eq (h : Spares w w' i own) (hne : j ≠ i) :
    kernelsOf j w'.log = kernelsOf j w.log := by
  obtain ⟨es, hes, htask⟩ := h.log
  rw [hes, kernelsOf_append]
  exact fun e he hj => hne (hj.symm.trans (htask e he))

theorem Spares.told (h : Spares w w' i own) {r : Request P α} {before : List (Event P α)}
    {u : ℕ → Bool} {m : Addr → α} (ht : Told w.log j r before u m) :
    Told w'.log j r before u m := by
  obtain ⟨es, hes, -⟩ := h.log
  rw [hes]
  exact ht.append es

/-- Allocations that a step of task `i` leaves alone. -/
def Safe (w : World P α) (own xs : List ℕ) : Prop := ∀ id ∈ xs, id ∉ own ∧ id < w.nextStorage

theorem Spares.knows (h : Spares w w' i own) (hne : j ≠ i) {reach : List ℕ}
    (hsafe : Safe w own reach) (hk : Knows w j reach g) : Knows w' j reach g where
  status_eq id hid :=
    (hk.status_eq id hid).trans (h.status_eq id (hsafe id hid).1 (hsafe id hid).2).symm
  uncertain_eq id hid :=
    (hk.uncertain_eq id hid).trans (h.uncertain_eq id (hsafe id hid).1 (hsafe id hid).2).symm
  kernels_eq := (h.kernelsOf_eq hne).trans hk.kernels_eq
  polled := hk.polled.trans (h.mem_log_iff (e := .created j) hne).symm
  stopped := hk.stopped.trans (h.mem_log_iff (e := .device j false) hne).symm
  refused e he := by
    obtain ⟨s, hs⟩ := hk.refused e he
    exact ⟨s, h.mem_log hs⟩

theorem Spares.aloft (h : Spares w w' i own) (hne : j ≠ i) {n : ℕ} (hsafe : Safe w own t.reach)
    (hwf : ∃ shape : Shape2D P, l.WellFormed shape) (hin : ∀ x ∈ l.inputs, x.storage.id ∈ t.reach)
    (hout : l.output.storage.id ∈ t.reach) (ha : Aloft w j n t g l) : Aloft w' j n t g l := by
  cases ha with
  | running progs m₀ done hf hk hm hp =>
    obtain ⟨shape, hwf⟩ := hwf
    have hsame : ∀ id ∈ t.reach, ∀ n, w'.memory (id, n) = w.memory (id, n) :=
      fun id hid => h.memory_eq id (hsafe id hid).1 (hsafe id hid).2
    refine .running progs m₀ done (h.flights n _ hne hf) (h.knows hne hsafe hk) ?_ (hp.congr ?_ ?_)
    · intro x hx k
      exact (hm x hx k).trans (hsame _ (hin x hx) k).symm
    · intro a ha
      obtain ⟨x, hx, hid, -⟩ := hwf.blocks_loads ha
      have hreach := hsame a.1 (hid ▸ hin x hx) a.2
      exact hreach
    · intro c hc
      obtain ⟨x, -, rfl⟩ := hwf.mem_stores.mp hc
      exact hsame _ hout _
  | completed progs hf hk =>
    exact .completed progs (h.flights n _ hne hf) (h.knows hne hsafe hk)

theorem Spares.waits (h : Spares w w' i own) (hne : j ≠ i) {n : ℕ} (hsafe : Safe w own t.reach)
    (hw : Waits w j n t g l) : Waits w' j n t g l where
  wellFormed := hw.wellFormed
  inputs := hw.inputs
  output := hw.output
  uncertain hl := by
    have hout := hsafe _ (List.mem_append_left _ hw.output)
    exact (h.uncertain_eq _ hout.1 hout.2).trans (hw.uncertain hl)
  aloft := h.aloft hne hsafe hw.wellFormed (fun x hx => (hw.inputs x hx).1)
    (List.mem_append_left _ hw.output) hw.aloft

omit [Scalar α] in
theorem borrowed_reach {r : Request P α} (hshared : t.shared.map Prod.snd = r.shared)
    (hlent : t.lent.map Prod.snd = r.lent) {b : Buffer P} (hb : b ∈ r.borrowed) :
    b.id ∈ t.reach := by
  rcases List.mem_append.mp hb with hb | hb
  · rw [← hshared, List.mem_map] at hb
    obtain ⟨x, hx, rfl⟩ := hb
    exact List.mem_append_right _ (List.mem_map_of_mem (f := fun x => x.2.id) hx)
  · rw [← hlent, List.mem_map] at hb
    obtain ⟨x, hx, rfl⟩ := hb
    exact List.mem_append_left _ (List.mem_append_right _
      (List.mem_map_of_mem (f := fun x => x.2.id) hx))

theorem Spares.runs (h : Spares w w' i own) (hne : j ≠ i) (hsafe : Safe w own t.reach)
    {r : Request P α} {before : List (Event P α)} {u : ℕ → Bool} {m : Addr → α}
    (hr : Runs w j t r before u m) : Runs w' j t r before u m where
  request_eq := hr.request_eq
  told := h.told hr.told
  shared_eq := hr.shared_eq
  lent_eq := hr.lent_eq
  known s hs := h.sessions _ _ (hr.known s hs)
  bound b hb := lt_of_lt_of_le (hr.bound b hb) h.next
  alive hc := hr.alive ((h.mem_log_iff (e := .cancelled j) hne).mp hc)
  memory_eq hk b hb n := by
    rw [h.kernelsOf_eq hne] at hk
    have hid := hsafe _ (borrowed_reach hr.shared_eq hr.lent_eq hb)
    exact (h.memory_eq _ hid.1 hid.2 n).trans (hr.memory_eq hk b hb n)
  record_eq d hd hid :=
    (h.record_eq _ (hsafe _ hid).1 (hsafe _ hid).2).trans (hr.record_eq d hd hid)

theorem Spares.goes (h : Spares w w' i own) (hne : j ≠ i) (hsafe : Safe w own t.reach)
    {c : Script α (Except Error (Outcome P α))} (hg : t.Goes w j c) : t.Goes w' j c := by
  obtain ⟨r, before, u, m, g, hr, hwp, hinv, hp⟩ := hg
  refine ⟨r, before, u, m, g, h.runs hne hsafe hr, hwp, hinv, ?_⟩
  cases hpending : t.pending with
  | none =>
    rw [hpending] at hp
    exact h.knows hne hsafe hp
  | some n =>
    rw [hpending] at hp
    obtain ⟨s, l, k, hc, hw⟩ := hp
    exact ⟨s, l, k, hc, h.waits hne hsafe hw⟩

/-- A step of one task leaves every other task as it is. -/
theorem Spares.task (h : Spares w w' i own) (hne : j ≠ i) (hsafe : Safe w own t.reach)
    (ht : t.Good w j) : t.Good w' j := by
  cases hc : t.control with
  | active c =>
    simp only [Task.Good, hc] at ht ⊢
    refine ⟨h.goes hne hsafe ht.1, fun hcreated => ?_⟩
    exact h.mem_log (ht.2 ((h.mem_log_iff (e := .created j) hne).mp hcreated))
  | suspended c =>
    simp only [Task.Good, hc] at ht ⊢
    exact ⟨h.goes hne hsafe ht.1, h.mem_log ht.2.1, ht.2.2⟩
  | forgotten c =>
    simp only [Task.Good, hc] at ht ⊢
    exact ⟨h.goes hne hsafe ht.1, h.mem_log ht.2.1, ht.2.2⟩
  | unwinding =>
    simp only [Task.Good, hc] at ht ⊢
    intro n hn
    obtain ⟨hlent, hheld, ⟨r, before, u, m, hr, htold⟩, g, l, hw⟩ := ht n hn
    exact ⟨hlent, hheld, ⟨r, before, u, m, hr, h.told htold⟩, g, l, h.waits hne hsafe hw⟩
  | finished =>
    simp only [Task.Good, hc] at ht ⊢
    exact ht

theorem Spares.recorded (h : Spares w w' i own) {d : DoubleGrid P}
    (hsafe : Safe w own (d.buffers.map Buffer.id)) (hr : Recorded w.log d) :
    Recorded w'.log d := by
  have hid : ∀ b ∈ d.buffers, b.id ∉ own ∧ b.id < w.nextStorage :=
    fun b hb => hsafe _ (List.mem_map_of_mem hb)
  have hrhs := hid d.rhs.storage (mem_grid_buffers.mpr (.inr (.inr rfl)))
  exact hr.congr (fun b hb => h.status_eq _ (hid b hb).1 (hid b hb).2)
    (h.record_eq _ hrhs.1 hrhs.2)

/-- A step of a task leaves the owners that it does not borrow as they are. -/
theorem Spares.owner (h : Spares w w' i own) {o : Owner P} (hsafe : Safe w own o.ids)
    (ho : o.Good w) : o.Good w' where
  kept := ho.kept
  ready := by
    have hid : ∀ b ∈ o.buffers, b.id ∉ own ∧ b.id < w.nextStorage :=
      fun b hb => hsafe _ (List.mem_map_of_mem hb)
    exact ho.ready.congr (fun b hb => h.status_eq _ (hid b hb).1 (hid b hb).2)
      fun b hb => h.uncertain_eq _ (hid b hb).1 (hid b hb).2
  known b hb := h.sessions _ _ (ho.known b hb)
  recorded d hd := by
    subst hd
    exact h.recorded hsafe (ho.recorded d rfl)

end Spares
end World
end Gudra
