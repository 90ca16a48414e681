import Gudra.Runs

/-! Between calls, a budget is charged for the live owners and the unfinished futures. -/
namespace Gudra

open Scope Interleave

variable {P : Platform} {α : Type}

namespace Usage

instance : Add Usage :=
  ⟨fun u v => ⟨u.bytes + v.bytes, u.buffers + v.buffers, u.operations + v.operations⟩⟩

instance : Zero Usage := ⟨⟨0, 0, 0⟩⟩

theorem add_eq (u v : Usage) :
    u + v = ⟨u.bytes + v.bytes, u.buffers + v.buffers, u.operations + v.operations⟩ := rfl

theorem zero_eq : (0 : Usage) = ⟨0, 0, 0⟩ := rfl

instance : AddCommMonoid Usage where
  add_assoc u v w := by simp [add_eq, Nat.add_assoc]
  zero_add u := by simp [add_eq, zero_eq]
  add_zero u := by simp [add_eq, zero_eq]
  add_comm u v := by simp [add_eq, Nat.add_comm]
  nsmul := nsmulRec

end Usage

namespace Owner

def session : Owner P → Session
  | halo g => g.storage.session
  | field f => f.storage.session
  | grid g => g.current.storage.session

/-- What the constructor of an owner charges. -/
def charge : Owner P → Usage
  | halo g => ⟨g.shape.haloedBytes, 1, 0⟩
  | field f => ⟨f.shape.interiorBytes, 1, 0⟩
  | grid g => ⟨2 * g.shape.haloedBytes + g.shape.interiorBytes, 3, 0⟩

end Owner

/-- The call whose future is not yet finished. -/
def Task.future? (t : Task P α) : Option (Request P α) :=
  match t.control with
  | .suspended _ | .forgotten _ => t.request
  | _ => none

/-- The task is a future between two polls or has ended. -/
def Task.Rests (t : Task P α) : Prop :=
  (∃ c, t.control = .suspended c) ∨ (∃ c, t.control = .forgotten c) ∨ t.control = .finished

namespace World

/-- No call is executing. -/
def Resting (w : World P α) : Prop := ∀ t ∈ w.tasks, t.Rests

/-- The unfinished futures. -/
def futures (w : World P α) : List (Request P α) := w.tasks.filterMap Task.future?

/-- The live and the forgotten owners, also those inside an unfinished future. -/
def holders (w : World P α) : List (Owner P) :=
  w.owners.map Prod.snd ++ w.leaked ++ w.futures.flatMap Request.owned

/-- What the owners and the futures of session `s` are charged. -/
def charges (w : World P α) (s : ℕ) : Usage :=
  ((w.holders.filter fun o => o.session.id = s).map Owner.charge).sum +
    ⟨0, 0, w.futures.countP fun r => r.session.id = s⟩

/-- The world as if task `i` had never held anything. -/
def without (w : World P α) (i : ℕ) : World P α := { w with tasks := w.tasks.eraseIdx i }

end World

/-! ### The total of some resources -/

/-- What the reservations of session `s` among resources amount to. -/
def total (s : ℕ) (xs : List Atom) : Usage :=
  ⟨bufferBytes (reservations s xs), bufferCount (reservations s xs),
    operationCount (reservations s xs)⟩

section Totals

variable {s : ℕ} {xs ys : List Atom}

@[simp] theorem total_nil : total s [] = 0 := rfl

theorem total_append : total s (xs ++ ys) = total s xs + total s ys := by
  simp [total, Usage.add_eq]

theorem total_perm (h : xs.Perm ys) : total s xs = total s ys := by
  have hr := reservations_perm (s := s) h
  rw [total, bufferBytes_perm hr, bufferCount_perm hr, operationCount_perm hr, total]

theorem total_flatMap {β : Type} (zs : List β) (f : β → List Atom) :
    total s (zs.flatMap f) = (zs.map fun z => total s (f z)).sum := by
  induction zs with
  | nil => rfl
  | cons z zs ih => rw [List.flatMap_cons, total_append, ih, List.map_cons, List.sum_cons]

@[simp] theorem total_storage {a : Storage} : total s (.storage a :: xs) = total s xs := rfl

theorem total_reservation {r : Reservation} : total s (.reservation r :: xs) =
    (if r.budget = s then
      if r.buffer then ⟨r.bytes, 1, 0⟩ else ⟨0, 0, 1⟩ else 0) + total s xs := by
  by_cases hs : r.budget = s
  · rw [total, ← hs, World.reservations_cons_self]
    cases hr : r.buffer <;> simp [total, hr, Usage.add_eq]
  · rw [total, World.reservations_cons_of_ne (Ne.symm hs), if_neg hs, zero_add, total]

/-- A buffer holds its charge. -/
theorem total_buffer {b : Buffer P} {extent : ℕ × ℕ} {bytes : ℕ} (h : b.Kept extent)
    (hbytes : extent.1 * extent.2 * sizeOfF32 = bytes) :
    total s b.atoms = if b.session.id = s then ⟨bytes, 1, 0⟩ else 0 := by
  subst hbytes
  rw [Buffer.atoms, total_storage, total_reservation, h.reservation_eq, total_nil, add_zero]
  rfl

theorem haloed_bytes (shape : Shape2D P) :
    shape.haloed.1 * shape.haloed.2 * sizeOfF32 = shape.haloedBytes := by
  rw [shape.haloedBytes_eq, haloedLen_prod]

theorem interior_bytes (shape : Shape2D P) :
    shape.interior.1 * shape.interior.2 * sizeOfF32 = shape.interiorBytes := by
  rw [shape.interiorBytes_eq, shape.interiorLen_eq]
  rfl

/-- An owner holds what its constructor charged. -/
theorem Owner.Kept.total_atoms {o : Owner P} (h : o.Kept) :
    total s o.atoms = if o.session.id = s then o.charge else 0 := by
  cases o with
  | halo g =>
    have hg : g.Kept := h
    exact (congrArg (total s) (List.append_nil _)).trans (total_buffer hg (haloed_bytes g.shape))
  | field f =>
    have hf : f.Kept := h
    exact (congrArg (total s) (List.append_nil _)).trans (total_buffer hf (interior_bytes f.shape))
  | grid g =>
    have hg : g.Kept := h
    have hcurrent := total_buffer (s := s) hg.current_kept (haloed_bytes g.shape)
    have hnext : total s g.next.storage.atoms = _ :=
      total_buffer (s := s) hg.next_kept (haloed_bytes g.next.shape)
    have hrhs : total s g.rhs.storage.atoms = _ :=
      total_buffer (s := s) hg.rhs_kept (interior_bytes g.rhs.shape)
    rw [hg.next_shape, hg.next_session] at hnext
    rw [hg.rhs_shape, hg.rhs_session] at hrhs
    have hatoms : (Owner.grid g).atoms =
        g.current.storage.atoms ++ (g.next.storage.atoms ++ g.rhs.storage.atoms) := rfl
    rw [hatoms, total_append, total_append, hcurrent, hnext, hrhs]
    by_cases hs : g.current.storage.session.id = s
    · simp [Owner.session, Owner.charge, hs, Usage.add_eq]
      omega
    · simp [Owner.session, hs]

theorem total_owners {os : List (Owner P)} (h : ∀ o ∈ os, o.Kept) :
    total s (os.flatMap Owner.atoms) =
      ((os.filter fun o => o.session.id = s).map Owner.charge).sum := by
  rw [total_flatMap]
  induction os with
  | nil => rfl
  | cons o os ih =>
    have hrest := ih fun x hx => h x (List.mem_cons_of_mem _ hx)
    have ho : total s o.atoms = _ := (h o List.mem_cons_self).total_atoms
    rw [List.map_cons, List.sum_cons, hrest, ho]
    by_cases hs : o.session.id = s
    · simp [hs]
    · simp [hs]

end Totals

/-! ### Owners and futures -/

theorem Request.entries_atoms (r : Request P α) :
    Frames.resources [r.entries] = r.owned.flatMap Owner.atoms := by
  cases r <;> rfl

theorem Request.owned_named {r : Request P α} {o : Owner P} (ho : o ∈ r.owned) : o ∈ r.named := by
  cases r <;> first | exact ho | cases ho

section Rest

variable [Scalar α] {w : World P α}

/-- Between calls a task is an unfinished future or holds nothing. -/
theorem Inv.rested (h : w.Inv) (hrest : w.Resting) {t : Task P α} (ht : t ∈ w.tasks) :
    (∃ r, t.future? = some r ∧ t.frames.resources.Perm r.held ∧ ∀ o ∈ r.owned, o.Kept) ∨
      t.future? = none ∧ t.frames.resources = [] := by
  obtain ⟨i, hi⟩ := List.mem_iff_getElem?.mp ht
  have hgood := h.tasks i t hi
  have hheld : ∀ c, t.Goes w i c → t.Held →
      ∃ r, t.request = some r ∧ t.frames.resources.Perm r.held ∧ ∀ o ∈ r.owned, o.Kept := by
    rintro c ⟨r, before, u, m, g, hruns, -⟩ ⟨r', hr', -, hres⟩
    obtain rfl := Option.some.inj (hruns.request_eq.symm.trans hr')
    exact ⟨r, hr', hres, fun o ho => hruns.told.pre.kept o (Request.owned_named ho)⟩
  rcases hrest t ht with ⟨c, hc⟩ | ⟨c, hc⟩ | hc
  · simp only [Task.Good, hc] at hgood
    obtain ⟨r, hr, hres, hkept⟩ := hheld c hgood.1 hgood.2.2
    exact .inl ⟨r, by rw [Task.future?, hc, hr], hres, hkept⟩
  · simp only [Task.Good, hc] at hgood
    obtain ⟨r, hr, hres, hkept⟩ := hheld c hgood.1 hgood.2.2
    exact .inl ⟨r, by rw [Task.future?, hc, hr], hres, hkept⟩
  · simp only [Task.Good, hc] at hgood
    refine .inr ⟨by rw [Task.future?, hc], ?_⟩
    rw [hgood.1]
    rfl

omit [Scalar α] in
/-- What the tasks hold between calls. -/
theorem total_tasks {s : ℕ} {ts : List (Task P α)} (h : ∀ t ∈ ts,
    (∃ r, t.future? = some r ∧ t.frames.resources.Perm r.held ∧ ∀ o ∈ r.owned, o.Kept) ∨
      t.future? = none ∧ t.frames.resources = []) :
    total s (ts.flatMap fun t => t.frames.resources) =
      total s ((ts.filterMap Task.future?).flatMap fun r => r.owned.flatMap Owner.atoms) +
        ⟨0, 0, (ts.filterMap Task.future?).countP fun r => r.session.id = s⟩ := by
  induction ts with
  | nil => rfl
  | cons t ts ih =>
    have hrest := ih fun x hx => h x (List.mem_cons_of_mem _ hx)
    rw [List.flatMap_cons, total_append, hrest]
    rcases h t List.mem_cons_self with ⟨r, hr, hres, -⟩ | ⟨hr, hres⟩
    · rw [total_perm hres, Request.held, total_reservation, r.entries_atoms,
        List.filterMap_cons_some hr, List.flatMap_cons, total_append, List.countP_cons]
      by_cases hs : r.session.id = s
      · have hone : (⟨0, 0, (ts.filterMap Task.future?).countP (fun r => r.session.id = s) + 1⟩ :
            Usage) = ⟨0, 0, 1⟩ +
              ⟨0, 0, (ts.filterMap Task.future?).countP fun r => r.session.id = s⟩ := by
          rw [Nat.add_comm]
          rfl
        simp only [hs, if_true, Bool.false_eq_true, if_false, decide_true, hone]
        abel
      · simp [hs, Usage.add_eq, add_assoc]
    · rw [hres, total_nil, zero_add, List.filterMap_cons_none hr]

/-- A budget is charged for every resource that is not yet dropped. -/
theorem Inv.usage_total (h : w.Inv) {s : ℕ} {b : Budget P} (hb : w.budget? s = some b) :
    b.usage = total s w.atoms := by
  have haccounts := (h.accounts s).1 b hb
  rw [total, ← haccounts.bytes_eq, ← haccounts.buffers_eq, ← haccounts.operations_eq]

/-- Between calls a budget is charged exactly for its owners and futures. -/
theorem Inv.usage_eq (h : w.Inv) (hrest : w.Resting) {s : ℕ} {b : Budget P}
    (hb : w.budget? s = some b) : b.usage = w.charges s := by
  have husage : b.usage = total s w.atoms := Inv.usage_total h hb
  have htasks := fun t ht => Inv.rested h hrest (t := t) ht
  have hkept : ∀ o ∈ w.holders, o.Kept := by
    intro o ho
    rcases List.mem_append.mp ho with ho | ho
    · rcases List.mem_append.mp ho with ho | ho
      · obtain ⟨x, hx, rfl⟩ := List.mem_map.mp ho
        exact (h.owners x hx).kept
      · exact h.leaked o ho
    · obtain ⟨r, hr, ho⟩ := List.mem_flatMap.mp ho
      obtain ⟨t, ht, hr⟩ := List.mem_filterMap.mp hr
      rcases htasks t ht with ⟨r', hr', -, hkept⟩ | ⟨hnone, -⟩
      · obtain rfl := Option.some.inj (hr.symm.trans hr')
        exact hkept o ho
      · rw [hr] at hnone
        cases hnone
  have hholders : w.holders.flatMap Owner.atoms =
      w.owners.flatMap (fun x => x.2.atoms) ++ w.leaked.flatMap Owner.atoms ++
        w.futures.flatMap fun r => r.owned.flatMap Owner.atoms := by
    rw [World.holders, List.flatMap_append, List.flatMap_append, List.flatMap_map,
      List.flatMap_assoc]
  rw [husage, World.atoms, total_append, total_tasks htasks, World.charges,
    ← total_owners hkept, hholders]
  simp only [total_append, World.futures, add_assoc]

end Rest

/-! ### One task at a time -/

/-- Inputs that only move task `i`. -/
def Input.Moves (i : ℕ) : Input P α → Prop
  | .tick j _ | .poll j | .cancel j | .forget j => j = i
  | .access .. | .finish _ => True
  | _ => False

/-- From `w` to `w'` only task `i` moved, and it gave the caller no owner. -/
structure Sole (w w' : World P α) (i : ℕ) : Prop where
  owners_eq : w'.owners = w.owners
  leaked_eq : w'.leaked = w.leaked
  tasks_eq : w'.tasks.eraseIdx i = w.tasks.eraseIdx i
  log : w.log <:+ w'.log

section Sole

variable {w w' w'' : World P α} {i : ℕ} {t t' : Task P α}

theorem Sole.refl (w : World P α) (i : ℕ) : Sole w w i := ⟨rfl, rfl, rfl, List.suffix_rfl⟩

theorem Sole.setTask (h : Sole w w' i) (t : Task P α) : Sole w (w'.setTask i t) i :=
  ⟨h.owners_eq, h.leaked_eq, (List.eraseIdx_set_eq ..).trans h.tasks_eq, h.log⟩

theorem Sole.record (h : Sole w w' i) (e : Event P α) : Sole w (w'.record e) i :=
  ⟨h.owners_eq, h.leaked_eq, h.tasks_eq, h.log.trans (List.suffix_cons ..)⟩

theorem sole_release (d : Option Atom) : Sole w (w.release d) i := by
  rw [World.release_eq]
  exact ⟨rfl, rfl, rfl, List.suffix_rfl⟩

theorem sole_reserve {s : ℕ} {section_ : Budget P → Locked Reservation}
    {rep : Except Error Reservation} (h : w.reserve i s section_ = some (rep, w')) :
    Sole w w' i := by
  simp only [World.reserve, Option.bind_eq_bind, Option.bind_eq_some_iff, Option.pure_def,
    Option.some.injEq, Prod.mk.injEq] at h
  obtain ⟨b, -, x, -, -, rfl⟩ := h
  have hset : Sole w (w.setBudget s x.2) i := ⟨rfl, rfl, rfl, List.suffix_rfl⟩
  exact hset.record _

theorem sole_perform {choice : Choice α} {e : Effect α} {rep : e.Rep}
    (h : w.perform i choice e = some (rep, w')) : Sole w w' i := by
  have hrefl := Sole.refl w i
  cases e with
  | buffer x s bytes => exact sole_reserve h
  | operation x s => exact sole_reserve h
  | bind s =>
    cases choice <;> cases h
    all_goals exact hrefl.record _
  | attempt =>
    cases choice <;> cases h
    all_goals exact hrefl
  | upload x session data =>
    cases choice <;> cases h
    · exact ⟨rfl, rfl, rfl, (List.suffix_cons ..).trans (List.suffix_cons ..)⟩
    · exact hrefl.record _
  | completions =>
    cases h
    exact hrefl
  | setCompletion id uncertain =>
    cases h
    exact ⟨rfl, rfl, rfl, List.suffix_rfl⟩
  | copy session s =>
    cases choice <;> cases h
    all_goals exact hrefl.record _
  | execute | «lazy» | panic => cases h

theorem Sole.resumeFailed (h : Sole w w' i) (t : Task P α) (l : Launch α)
    (k : Except String Unit → Script α (Except Error (Outcome P α))) (choice : Choice α) :
    Sole w (w'.resumeFailed i t l k choice) i := by
  have hfailed : ∀ garbage, Sole w (w'.failLaunch i l garbage) i := by
    intro garbage
    have hscribble : Sole w (w'.scribble l.output.storage.id garbage) i :=
      ⟨h.owners_eq, h.leaked_eq, h.tasks_eq, h.log⟩
    exact hscribble.record _
  cases choice with
  | ok => exact h
  | fail operation message garbage => exact (hfailed garbage).setTask _
  | unwind garbage => exact (hfailed garbage).setTask _

theorem sole_await {n s : ℕ} {l : Launch α}
    {k : Except String Unit → Script α (Except Error (Outcome P α))} {choice : Choice α} :
    Sole w (w.await i t n s l k choice) i := by
  have hrefl := Sole.refl w i
  have hflight : ∀ f, Sole w (w.setFlight n f) i := fun f => ⟨rfl, rfl, rfl, List.suffix_rfl⟩
  simp only [World.await]
  cases hf : w.flights[n]? with
  | none => exact hrefl
  | some f =>
    cases choice with
    | ok =>
      simp only
      split
      · exact hrefl.setTask _
      · split
        · exact hrefl.setTask _
        · exact hrefl
    | fail operation message garbage => exact (hflight _).resumeFailed t l k _
    | unwind garbage => exact (hflight _).resumeFailed t l k _

variable [Scalar α]

theorem sole_submit {l : Launch α}
    {k : Except String Unit → Script α (Except Error (Outcome P α))} {choice : Choice α} :
    Sole w (w.submit i t l k choice) i := by
  have hrefl := Sole.refl w i
  cases choice with
  | ok =>
    refine ⟨rfl, rfl, List.eraseIdx_set_eq .., ?_⟩
    exact (List.suffix_cons ..).trans (List.suffix_cons ..)
  | fail operation message garbage =>
    exact (hrefl.record (.device i true)).resumeFailed t l k (.fail operation message garbage)
  | unwind garbage =>
    exact (hrefl.record (.device i true)).resumeFailed t l k (.unwind garbage)

omit [Scalar α] in
theorem sole_reply (choice : Choice α) (e : Effect α)
    (k : e.Rep → Script α (Except Error (Outcome P α))) :
    Sole w (match w.perform i choice e with
      | none => w.setTask i { t with control := .unwinding }
      | some (rep, w') => w'.setTask i
          { t with frames := Frames.push (e.gain rep) t.frames, control := .active (k rep) }) i := by
  cases hp : w.perform i choice e with
  | none => exact (Sole.refl w i).setTask _
  | some x => exact (sole_perform hp).setTask _

theorem sole_effect (choice : Choice α) (e : Effect α)
    (k : e.Rep → Script α (Except Error (Outcome P α))) :
    Sole w (w.effect i t choice e k) i := by
  cases e with
  | «lazy» => exact ((Sole.refl w i).record _).setTask _
  | execute s l =>
    simp only [World.effect]
    cases t.pending with
    | none => exact sole_submit
    | some n => exact sole_await
  | _ => exact sole_reply choice _ k

omit [Scalar α] in
theorem sole_unwindTask (choice : Choice α) : Sole w (w.unwindTask i t choice) i := by
  have hrefl := Sole.refl w i
  have hfailed : ∀ n f l garbage, Sole w ((w.setFlight n f).failLaunch i l garbage) i := by
    intro n f l garbage
    have hscribble : Sole w ((w.setFlight n f).scribble l.output.storage.id garbage) i :=
      ⟨rfl, rfl, rfl, List.suffix_rfl⟩
    exact hscribble.record _
  cases hpending : t.pending with
  | none =>
    simp only [World.unwindTask, hpending]
    cases t.frames.unwind with
    | none => exact hrefl.setTask _
    | some x => exact (sole_release x.1).setTask _
  | some n =>
    simp only [World.unwindTask, hpending]
    cases w.flights[n]? with
    | none => exact hrefl
    | some f =>
      cases choice with
      | ok =>
        simp only
        split
        · exact hrefl.setTask _
        · exact hrefl
      | fail operation message garbage => exact (hfailed _ _ _ _).setTask _
      | unwind garbage => exact (hfailed _ _ _ _).setTask _

/-- Task `i` returned with success. -/
def Succeeded (log : List (Event P α)) (i : ℕ) : Prop :=
  ∃ r o args stored, .returned i r (.ok o) args stored ∈ log

omit [Scalar α] in
theorem Succeeded.mono {log log' : List (Event P α)} (h : Succeeded log i) (hs : log <:+ log') :
    Succeeded log' i := by
  obtain ⟨r, o, args, stored, hmem⟩ := h
  exact ⟨r, o, args, stored, hs.subset hmem⟩

/-- Task `i` moves alone: it gives the caller owners only when it returns with success. -/
structure Leads (w w' : World P α) (i : ℕ) : Prop where
  log : w.log <:+ w'.log
  sole : Sole w w' i ∨ Succeeded w'.log i

omit [Scalar α] in
theorem Sole.leads (h : Sole w w' i) : Leads w w' i := ⟨h.log, .inl h⟩

omit [Scalar α] in
theorem Sole.trans (h : Sole w w' i) (h' : Sole w' w'' i) : Sole w w'' i :=
  ⟨h'.owners_eq.trans h.owners_eq, h'.leaked_eq.trans h.leaked_eq,
    h'.tasks_eq.trans h.tasks_eq, h.log.trans h'.log⟩

omit [Scalar α] in
theorem Leads.trans (h : Leads w w' i) (h' : Leads w' w'' i) : Leads w w'' i := by
  refine ⟨h.log.trans h'.log, ?_⟩
  rcases h.sole with hs | hs
  · rcases h'.sole with hs' | hs'
    · exact .inl (hs.trans hs')
    · exact .inr hs'
  · exact .inr (hs.mono h'.log)

theorem leads_tick (h : w.Inv) (i : ℕ) (choice : Choice α) : Leads w (w.tick i choice) i := by
  have hrefl := Sole.refl w i
  simp only [World.tick]
  cases hi : w.tasks[i]? with
  | none => exact hrefl.leads
  | some t =>
    cases hc : t.control with
    | active c =>
      cases hint : c.internal t.frames with
      | some x =>
        simp only [hc, hint]
        exact ((sole_release x.1).setTask _).leads
      | none =>
        simp only [hc, hint]
        cases c with
        | ret result =>
          obtain ⟨⟨r, before, u, m, g, hr, -⟩, -⟩ := h.active hi hc
          simp only [World.complete, hr.request_eq]
          cases result with
          | ok o => exact ⟨List.suffix_cons .., .inr ⟨r, o, _, _, List.mem_cons_self⟩⟩
          | error e =>
            refine Sole.leads ⟨?_, rfl, List.eraseIdx_set_eq .., List.suffix_cons ..⟩
            exact List.append_nil _
        | eff e k => exact (sole_effect choice e k).leads
        | own | enter | yield | exit => exact hrefl.leads
    | unwinding =>
      simp only [hc]
      exact (sole_unwindTask choice).leads
    | suspended | forgotten | finished =>
      simp only [hc]
      exact hrefl.leads

omit [Scalar α] in
theorem sole_resume (event : Event P α)
    (control : Script α (Except Error (Outcome P α)) → Control P α) :
    Sole w (w.resume i event control) i := by
  have hrefl := Sole.refl w i
  simp only [World.resume]
  cases hi : w.tasks[i]? with
  | none => exact hrefl
  | some t =>
    cases hc : t.control with
    | suspended c =>
      simp only [hc]
      exact (hrefl.record event).setTask _
    | active | forgotten | unwinding | finished =>
      simp only [hc]
      exact hrefl

omit [Scalar α] in
theorem sole_access (n b : ℕ) : Sole w (w.access n b) i := by
  simp only [World.access]
  split
  · exact .refl w i
  · split
    · exact ⟨rfl, rfl, rfl, List.suffix_rfl⟩
    · exact .refl w i

omit [Scalar α] in
theorem sole_finish (n : ℕ) : Sole w (w.finish n) i := by
  simp only [World.finish]
  split
  · exact .refl w i
  · split
    · exact ⟨rfl, rfl, rfl, List.suffix_cons ..⟩
    · exact .refl w i

theorem leads_step (h : w.Inv) {x : Input P α} (hx : x.Moves i) : Leads w (w.step x) i := by
  cases x with
  | tick j choice =>
    obtain rfl : j = i := hx
    exact leads_tick h j choice
  | poll j =>
    obtain rfl : j = i := hx
    exact (sole_resume _ _).leads
  | cancel j =>
    obtain rfl : j = i := hx
    exact (sole_resume _ _).leads
  | forget j =>
    obtain rfl : j = i := hx
    exact (sole_resume _ _).leads
  | access n b => exact (sole_access n b).leads
  | finish n => exact (sole_finish n).leads
  | newGpu | call | dropOwner | forgetOwner => exact hx.elim

theorem leads_run (h : w.Inv) {steps : List (Input P α)} (hsteps : ∀ x ∈ steps, x.Moves i) :
    Leads w (w.run steps) i := by
  induction steps generalizing w with
  | nil => exact (Sole.refl w i).leads
  | cons x steps ih =>
    have hstep := leads_step h (hsteps x List.mem_cons_self)
    have hrest := ih (World.inv_step h x) fun y hy => hsteps y (List.mem_cons_of_mem _ hy)
    exact hstep.trans hrest

end Sole

section Balance

variable [Scalar α] {w : World P α} {i s : ℕ}

/-- A task that ends without success leaves no charge behind. -/
theorem usage_ended (h : w.Inv) (hrest : (w.without i).Resting) {steps : List (Input P α)}
    (hsteps : ∀ x ∈ steps, x.Moves i) {t : Task P α} (ht : (w.run steps).tasks[i]? = some t)
    (hc : t.control = .finished) (hfailed : ¬ Succeeded (w.run steps).log i) {b : Budget P}
    (hb : (w.run steps).budget? s = some b) : b.usage = (w.without i).charges s := by
  have hsole := (leads_run h hsteps).sole.resolve_right hfailed
  have htasks : (w.run steps).tasks.Perm (t :: w.tasks.eraseIdx i) := by
    have hperm := perm_cons_eraseIdx ht
    rwa [hsole.tasks_eq] at hperm
  have hresting : (w.run steps).Resting := by
    intro t' ht'
    rcases List.mem_cons.mp (htasks.mem_iff.mp ht') with rfl | ht'
    · exact .inr (.inr hc)
    · exact hrest t' ht'
  have hfutures : (w.run steps).futures.Perm (w.without i).futures := by
    have hnone : t.future? = none := by rw [Task.future?, hc]
    have hperm := htasks.filterMap Task.future?
    rwa [List.filterMap_cons_none hnone] at hperm
  have hholders : (w.run steps).holders.Perm (w.without i).holders := by
    rw [World.holders, World.holders, hsole.owners_eq, hsole.leaked_eq]
    exact (hfutures.flatMap_right _).append_left _
  rw [Inv.usage_eq (World.inv_run h steps) hresting hb, World.charges, World.charges,
    ((hholders.filter _).map _).sum_eq, hfutures.countP_eq]

/-- In every run, whenever no call executes, each budget is charged exactly for the live and the
forgotten owners and the unfinished futures of its session. So a call and a future that end without
success leave only the owners that they did not consume. -/
theorem charges_balanced (memory : Addr → α) (inputs : List (Input P α)) (s : ℕ) :
    let w := (World.init P memory).run inputs
    w.Resting →
    (∀ b, w.budget? s = some b → b.usage = w.charges s) ∧
    (∀ c r steps t b, w.resolve c = some r → w.Permitted c →
      (∀ x ∈ steps, x.Moves w.tasks.length) →
      ((w.call c).run steps).tasks[w.tasks.length]? = some t → t.control = .finished →
      ¬ Succeeded ((w.call c).run steps).log w.tasks.length →
      ((w.call c).run steps).budget? s = some b → b.usage = (w.removeOwners c.moved).charges s) ∧
    (∀ i steps t b, (∀ x ∈ steps, x.Moves i) → (w.run steps).tasks[i]? = some t →
      t.control = .finished → ¬ Succeeded (w.run steps).log i →
      (w.run steps).budget? s = some b → b.usage = (w.without i).charges s) ∧
    (w.owners = [] → w.leaked = [] → w.futures = [] → ∀ b, w.budget? s = some b → b.usage = 0) := by
  intro w hrest
  have hinv : w.Inv := World.inv_run (World.inv_init memory) inputs
  refine ⟨?_, ?_, ?_, ?_⟩
  · exact fun b hb => Inv.usage_eq hinv hrest hb
  · intro c r steps t b hr hpermitted hsteps ht hc hfailed hb
    have hcall : (w.call c).without w.tasks.length =
        { w.removeOwners c.moved with
          log := .called w.tasks.length r (w.snapshot r.buffers) :: w.log } := by
      simp [World.call, hr, hpermitted, World.without, World.addTask, World.record,
        World.removeOwners, List.eraseIdx_append_of_length_le]
    have husage := usage_ended (World.inv_call hinv c) (by
      rw [hcall]
      exact hrest) hsteps ht hc hfailed hb
    rw [husage, hcall]
    rfl
  · intro i steps t b hsteps ht hc hfailed hb
    refine usage_ended hinv (fun t' ht' => hrest t' ?_) hsteps ht hc hfailed hb
    exact List.mem_of_mem_eraseIdx ht'
  · intro howners hleaked hfutures b hb
    rw [Inv.usage_eq hinv hrest hb, World.charges, World.holders, howners, hleaked, hfutures]
    rfl

/-- A field of one cell, made by thirteen moves of its call. -/
def zerosCell : List (Input ⟨64, Platform.le_64⟩ ℚ) :=
  .newGpu 0 ResourceLimits.cell :: .call (.zeros 0 Shape2D.cell) :: List.replicate 13 (.tick 0 .ok)

/-- A grid for whose first buffer alone there is room beside that field. -/
def refusedGrid : Invocation ⟨64, Platform.le_64⟩ ℚ :=
  .doubleGrid 0 Shape2D.cell (List.replicate 9 0) [0]

/-- Its six moves. -/
def refusedMoves : List (Input ⟨64, Platform.le_64⟩ ℚ) := List.replicate 6 (.tick 1 .ok)

/-- After the field, and after the grid was refused. -/
abbrev cellWorld : World ⟨64, Platform.le_64⟩ ℚ := (World.init _ fun _ => 0).run zerosCell

abbrev refusedWorld : World ⟨64, Platform.le_64⟩ ℚ := (cellWorld.call refusedGrid).run refusedMoves

theorem refusedWorld_log : ∃ r reservation e args stored,
    refusedWorld.log = .returned 1 r (.error e) args stored :: .reserved 1 0 (.error e) ::
      .reserved 1 0 (.ok reservation) :: .called 1 r [] :: cellWorld.log :=
  ⟨_, _, _, _, _, rfl⟩

theorem refusedWorld_failed : ¬ Succeeded refusedWorld.log 1 := by
  rintro ⟨r, o, args, stored, hmem⟩
  obtain ⟨r', reservation, e, args', stored', hlog⟩ := refusedWorld_log
  simp only [hlog, List.mem_cons, Event.returned.injEq, reduceCtorEq, false_and, and_false,
    false_or] at hmem
  -- The call before was task 0.
  have htask : ∀ x ∈ cellWorld.log, x.task = 0 := by decide +kernel
  exact Nat.one_ne_zero (htask _ hmem)

theorem refusedWorld_task : ∃ t, refusedWorld.tasks[1]? = some t ∧ t.control = .finished :=
  ⟨_, rfl, rfl⟩

/-- The field is charged, and still alone after the grid was refused its second reservation. -/
theorem charges_balanced_cell :
    (∃ b, cellWorld.budget? 0 = some b ∧ b.usage = ⟨4, 1, 0⟩) ∧
    (∃ r reservation e args stored,
      refusedWorld.log = .returned 1 r (.error e) args stored :: .reserved 1 0 (.error e) ::
        .reserved 1 0 (.ok reservation) :: .called 1 r [] :: cellWorld.log) ∧
    ∃ b, refusedWorld.budget? 0 = some b ∧ b.usage = ⟨4, 1, 0⟩ := by
  have hrest : cellWorld.Resting := by
    intro t ht
    obtain rfl := List.mem_singleton.mp ht
    exact .inr (.inr rfl)
  obtain ⟨hfield, hcall, -, -⟩ := charges_balanced (fun _ => (0 : ℚ)) zerosCell 0 hrest
  have hpermitted : cellWorld.Permitted refusedGrid := by decide +kernel
  have hmoves : ∀ x ∈ refusedMoves, x.Moves cellWorld.tasks.length := by
    intro x hx
    obtain rfl := List.eq_of_mem_replicate hx
    rfl
  obtain ⟨r, hr⟩ : ∃ r, cellWorld.resolve refusedGrid = some r := ⟨_, rfl⟩
  obtain ⟨t, ht, hc⟩ := refusedWorld_task
  obtain ⟨b, hb⟩ : ∃ b, cellWorld.budget? 0 = some b := ⟨_, rfl⟩
  obtain ⟨b', hb'⟩ : ∃ b, refusedWorld.budget? 0 = some b := ⟨_, rfl⟩
  have hcharges : cellWorld.charges 0 = ⟨4, 1, 0⟩ := by decide +kernel
  have hleft : (cellWorld.removeOwners refusedGrid.moved).charges 0 = ⟨4, 1, 0⟩ := by decide +kernel
  refine ⟨⟨b, hb, (hfield b hb).trans hcharges⟩, refusedWorld_log, b', hb', ?_⟩
  have husage := hcall refusedGrid r refusedMoves t b' hr hpermitted hmoves ht hc
    refusedWorld_failed hb'
  exact husage.trans hleft

end Balance
end Gudra
