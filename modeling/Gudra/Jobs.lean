import Gudra.Charges
import Gudra.Readability
import Gudra.Standing

/-! Jobs in flight do not interfere: a future computes what it computes alone. -/
namespace Gudra

open Scope Interleave

variable {P : Platform} {α : Type}

/-- The step count of a result. -/
def Outcome.completed : Outcome P α → Option ℕ
  | .grid g => some g.completed
  | _ => none

namespace Request

/-- The same asynchronous call, on other buffers and perhaps another session. -/
def Alike : Request P α → Request P α → Prop
  | .stepIntoAsync _ source _ _ params, .stepIntoAsync _ source' _ _ params' =>
    source.shape = source'.shape ∧ params = params'
  | .advanceAsync grid count params, .advanceAsync grid' count' params' =>
    grid.shape = grid'.shape ∧ grid.completed = grid'.completed ∧ count = count' ∧ params = params'
  | _, _ => False

/-- The check reads the flags of the arguments and nothing else. -/
theorem check_congr {r : Request P α} (hasync : r.isAsync = true) {u u' : ℕ → Bool}
    (h : r.buffers.map (fun b => u b.id) = r.buffers.map fun b => u' b.id) :
    r.check u = r.check u' := by
  cases r with
  | stepIntoAsync session source rhs output params =>
    simp only [buffers, owned, borrowed, shared, lent, List.flatMap_cons, Owner.buffers,
      List.flatMap_nil, List.singleton_append, List.append_nil, List.map_cons, List.map_nil,
      List.cons.injEq, and_true] at h
    obtain ⟨hsource, hrhs, houtput⟩ := h
    refine validateFields_congr hsource ?_
    intro f hf
    rcases List.mem_cons.mp hf with rfl | hf
    · exact hrhs
    · obtain rfl := List.mem_singleton.mp hf
      exact houtput
  | advanceAsync => rfl
  | _ => cases hasync

end Request

theorem after_buffers_perm {grid : DoubleGrid P} {k : ℕ} :
    (grid.after k).buffers.Perm grid.buffers := by
  induction k with
  | zero => exact .refl _
  | succ k ih =>
    rw [DoubleGrid.after_succ]
    exact (List.Perm.swap ..).trans ih

variable [Scalar α] {r r' : Request P α} {o o' : Outcome P α}
  {args args' stored stored' borrowed borrowed' : List (List α)}

/-- A future gives back the buffers that it was given. -/
theorem Request.Result.own (hasync : r.isAsync = true) (h : r.Result args o stored borrowed) :
    o.stored.Perm r.buffers := by
  cases r with
  | stepIntoAsync session source rhs output params =>
    cases o with
    | buffers b =>
      obtain ⟨rfl, -⟩ := h
      exact .refl _
    | _ => exact h.elim
  | advanceAsync grid count params =>
    cases o with
    | grid g =>
      obtain ⟨rfl, -⟩ := h
      exact (after_buffers_perm (k := count)).trans (.of_eq (by simp [Request.buffers, Request.owned,
        Owner.buffers, Request.borrowed, Request.shared, Request.lent]))
    | _ => exact h.elim
  | _ => cases hasync

/-- What a future returns depends on its call and the contents of its arguments. -/
theorem Request.Result.alike (hr : r.Alike r') (h : r.Result args o stored borrowed)
    (h' : r'.Result args o' stored' borrowed') : o'.completed = o.completed ∧ stored' = stored := by
  cases r with
  | stepIntoAsync session source rhs output params =>
    cases r' with
    | stepIntoAsync session' source' rhs' output' params' =>
      obtain ⟨hshape, rfl⟩ := hr
      cases o with
      | buffers b =>
        cases o' with
        | buffers b' =>
          obtain ⟨-, u, f, out, rfl, rfl⟩ := h
          obtain ⟨-, u', f', out', hargs, rfl⟩ := h'
          cases hargs
          rw [hshape]
          exact ⟨rfl, rfl⟩
        | _ => exact h'.elim
      | _ => exact h.elim
    | _ => exact hr.elim
  | advanceAsync grid count params =>
    cases r' with
    | advanceAsync grid' count' params' =>
      obtain ⟨hshape, hcompleted, rfl, rfl⟩ := hr
      cases o with
      | grid g =>
        cases o' with
        | grid g' =>
          obtain ⟨rfl, u, v, f, rfl, rfl⟩ := h
          obtain ⟨rfl, u', v', f', hargs, rfl⟩ := h'
          cases hargs
          rw [hshape]
          simp only [Outcome.completed, DoubleGrid.after_completed, hcompleted, and_self]
        | _ => exact h'.elim
      | _ => exact h.elim
    | _ => exact hr.elim
  | _ => exact hr.elim

theorem Request.Result.unique (hasync : r.isAsync = true) (h : r.Result args o stored borrowed)
    (h' : r.Result args o' stored' borrowed') : o' = o ∧ stored' = stored := by
  have hstored : r.Alike r → stored' = stored := fun hr => (h.alike hr h').2
  cases r with
  | stepIntoAsync session source rhs output params =>
    refine ⟨?_, hstored ⟨rfl, rfl⟩⟩
    cases o with
    | buffers b =>
      cases o' with
      | buffers b' => exact congrArg _ (h'.1.trans h.1.symm)
      | _ => exact h'.elim
    | _ => exact h.elim
  | advanceAsync grid count params =>
    refine ⟨?_, hstored ⟨rfl, rfl, rfl, rfl⟩⟩
    cases o with
    | grid g =>
      cases o' with
      | grid g' => exact congrArg _ (h'.1.trans h.1.symm)
      | _ => exact h'.elim
    | _ => exact h.elim
  | _ => cases hasync

/-- A call that returned with success returned what its arguments determine. -/
theorem GoodLog.result {log : List (Event P α)} {i : ℕ} {xs ys : List (Bool × List α)}
    {after before : List (Event P α)} (h : GoodLog log)
    (hcalled : log = after ++ .called i r xs :: before)
    (hreturned : .returned i r (.ok o) ys stored ∈ log) :
    r.Result (xs.map Prod.snd) o stored (ys.map Prod.snd) := by
  obtain ⟨later, earlier, rfl⟩ := List.append_of_mem hreturned
  obtain ⟨b, u, m, htold, -, hends⟩ := h.good
  have htold' := htold.append (later ++ [.returned i r (.ok o) ys stored])
  rw [List.append_assoc] at htold'
  obtain ⟨-, rfl, -⟩ := htold'.unique h hcalled
  exact hends.2.2.1

/-- A future that was not issued was refused for its own arguments or by admission. -/
theorem GoodLog.refusal {log : List (Event P α)} {i : ℕ} {ys : List (Bool × List α)} {e : Error}
    (h : GoodLog log) (hasync : r.isAsync = true) (hcreated : .created i ∉ log)
    (hreturned : .returned i r (.error e) ys stored ∈ log) :
    (∃ xs, .called i r xs ∈ log ∧ ∀ u : ℕ → Bool,
      xs.map Prod.fst = r.buffers.map (fun b => u b.id) → r.check u = .error e) ∨
        ∃ s, .reserved i s (.error e) ∈ log := by
  obtain ⟨later, earlier, rfl⟩ := List.append_of_mem hreturned
  obtain ⟨b, u, m, htold, -, hends⟩ := h.good
  have hnot : .created i ∉ earlier := fun hmem =>
    hcreated (List.mem_append_right _ (List.mem_cons_of_mem _ hmem))
  rcases hends.2.1 hasync hnot with hcheck | ⟨s, hs⟩
  · refine .inl ⟨_, List.mem_append_right _ (List.mem_cons_of_mem _ htold.mem), fun u' hu' => ?_⟩
    rw [← hcheck]
    refine Request.check_congr hasync ?_
    rw [← hu', arguments, List.map_map]
    rfl
  · exact .inr ⟨s, List.mem_append_right _ (List.mem_cons_of_mem _ hs)⟩

namespace World

variable {w : World P α} {i s : ℕ} {t : Task P α}

/-- The task of a call that starts. -/
theorem call_task {c : Invocation P α} (hresolve : w.resolve c = some r) (hpermitted : w.Permitted c) :
    ∃ t, (w.call c).tasks[w.tasks.length]? = some t ∧ t.request = some r ∧
      t.control = .active r.code ∧ t.pending = none := by
  simp only [call, hresolve, hpermitted, if_true]
  exact ⟨_, List.getElem?_concat_length, rfl, rfl, rfl⟩

/-- A request for an operation is decided by the operations in use, and by nothing else. -/
theorem tick_operation {x : Name}
    {k : Except Error Reservation → Script α (Except Error (Outcome P α))} (h : w.Inv)
    (hi : w.tasks[i]? = some t) (hc : t.control = .active (.eff (.operation x s) k))
    (choice : Choice α) : ∃ b, w.budget? s = some b ∧ (w.tick i choice).log =
      .reserved i s (if b.OperationFits then .ok ⟨s, 0, false⟩
        else .error (.resourceLimit "operations" b.limits.operations)) :: w.log := by
  obtain ⟨rep, w', hperform⟩ := h.exists_reply hi hc nofun
  have htick := tick_perform hi hc choice hperform
  obtain ⟨b, b', hb, hb', rfl⟩ := reserve_eq_some hperform
  refine ⟨b, hb, ?_⟩
  rw [htick]
  by_cases hf : b.OperationFits
  · rw [Budget.operation_ok hf] at hb'
    cases hb'
    simp only [hf, if_true]
    rfl
  · rw [Budget.operation_error hf] at hb'
    cases hb'
    simp only [hf, if_false]
    rfl

/-- Every unfinished future holds an operation of its session. -/
theorem futures_le (h : w.Inv) (s : ℕ) :
    (w.futures.countP fun r => r.session.id = s) ≤ operationCount (reservations s w.atoms) := by
  have hfuture : ∀ t ∈ w.tasks, ∀ r, t.future? = some r → t.frames.resources.Perm r.held := by
    intro t ht r hr
    obtain ⟨i, hi⟩ := List.mem_iff_getElem?.mp ht
    have hgood := h.tasks i t hi
    cases hc : t.control with
    | suspended c | forgotten c =>
      simp only [Task.future?, hc] at hr
      simp only [Task.Good, hc] at hgood
      obtain ⟨-, -, r', hr', -, hres⟩ := hgood
      obtain rfl := Option.some.inj (hr.symm.trans hr')
      exact hres
    | active | unwinding | finished =>
      simp only [Task.future?, hc] at hr
      cases hr
  have htasks : ∀ ts : List (Task P α), (∀ t ∈ ts, ∀ r, t.future? = some r →
      t.frames.resources.Perm r.held) → ((ts.filterMap Task.future?).countP fun r =>
        r.session.id = s) ≤ operationCount (reservations s (ts.flatMap fun t => t.frames.resources)) := by
    intro ts hts
    induction ts with
    | nil => exact Nat.zero_le _
    | cons t ts ih =>
      have hrest := ih fun x hx => hts x (List.mem_cons_of_mem _ hx)
      rw [List.flatMap_cons, reservations_append, operationCount_append]
      cases hr : t.future? with
      | none =>
        rw [List.filterMap_cons_none hr]
        exact hrest.trans (Nat.le_add_left _ _)
      | some r =>
        rw [List.filterMap_cons_some hr, List.countP_cons]
        have hheld := reservations_perm (s := s) (hts t List.mem_cons_self r hr)
        rw [operationCount_perm hheld, Request.held]
        by_cases hs : r.session.id = s
        · have hone : operationCount (reservations s (.reservation ⟨r.session.id, 0, false⟩ ::
              Frames.resources [r.entries])) =
              operationCount (reservations s (Frames.resources [r.entries])) + 1 := by
            simp [reservations, Atom.reservation?, hs, Nat.add_comm]
          rw [hone, if_pos (decide_eq_true hs)]
          omega
        · rw [if_neg (by simpa using hs)]
          exact hrest.trans (Nat.le_add_left _ _)
  rw [World.atoms, reservations_append, operationCount_append]
  exact (htasks w.tasks hfuture).trans (Nat.le_add_left _ _)

end World

section Interference

/-- In every run, whatever the other jobs do: a future that succeeds returns its own buffers, with
the step count and the contents that its call and the contents of its arguments determine, the same
in every run; created and run alone it succeeds with just these; and it can be finished alone at any
time. It is refused for its own arguments or by admission, which counts the unfinished operations of
its session. -/
theorem jobs_do_not_interfere (memory memory' : Addr → α) (inputs inputs' : List (Input P α)) :
    let w := (World.init P memory).run inputs
    let w' := (World.init P memory').run inputs'
    (∀ i r o args args₁ stored, r.isAsync = true → .called i r args ∈ w.log →
      .returned i r (.ok o) args₁ stored ∈ w.log → o.stored.Perm r.buffers ∧
        ∀ j r' o' args' args₁' stored', .called j r' args' ∈ w'.log →
          .returned j r' (.ok o') args₁' stored' ∈ w'.log → r.Alike r' →
          args.map Prod.snd = args'.map Prod.snd →
          o'.completed = o.completed ∧ stored' = stored) ∧
    (∀ c r, w.resolve c = some r → r.isAsync = true → w.Permitted c → w.Accepts r →
      ∃ alone o args stored, (w.call c).Alone w.tasks.length alone ∧
        .returned w.tasks.length r (.ok o) args stored ∈ ((w.call c).run alone).log ∧
        ∀ others o' args' stored', .returned w.tasks.length r (.ok o') args' stored' ∈
          ((w.call c).run others).log → o' = o ∧ stored' = stored) ∧
    (∀ (i : ℕ) (t : Task P α) r c, w.tasks[i]? = some t → t.request = some r →
      t.control = .suspended c → w.Completes i r) ∧
    (∀ (i : ℕ) (t : Task P α) r, w.tasks[i]? = some t → t.request = some r → r.isAsync = true →
      (∀ c, t.control ≠ .active c) → .created i ∈ w.log ∨ .created i ∉ w.log ∧
        ∃ e args stored, .returned i r (.error e) args stored ∈ w.log ∧
        ((∃ args', .called i r args' ∈ w.log ∧ ∀ u : ℕ → Bool,
          args'.map Prod.fst = r.buffers.map (fun b => u b.id) → r.check u = .error e) ∨
          ∃ s, .reserved i s (.error e) ∈ w.log)) ∧
    (∀ (i : ℕ) (t : Task P α) x s k choice, w.tasks[i]? = some t →
      t.control = .active (.eff (.operation x s) k) → ∃ b, w.budget? s = some b ∧
        (w.tick i choice).log = .reserved i s (if b.OperationFits then .ok ⟨s, 0, false⟩
          else .error (.resourceLimit "operations" b.limits.operations)) :: w.log) ∧
    ∀ s b, w.budget? s = some b → (w.futures.countP fun r => r.session.id = s) ≤
      operationCount (reservations s w.atoms) ∧
      b.usage.operations = operationCount (reservations s w.atoms) ∧
      b.usage.operations ≤ b.limits.operations := by
  intro w w'
  have hinv : w.Inv := World.inv_run (World.inv_init memory) inputs
  have hinv' : w'.Inv := World.inv_run (World.inv_init memory') inputs'
  have hstanding : w.Standing := World.standing_run (World.inv_init memory) (by rintro i t ⟨⟩) inputs
  refine ⟨?_, ?_, ?_, ?_, ?_, ?_⟩
  · intro i r o args args₁ stored hasync hcalled hreturned
    obtain ⟨after, before, hsplit⟩ := List.append_of_mem hcalled
    have hresult := hinv.good.result hsplit hreturned
    refine ⟨hresult.own hasync, ?_⟩
    intro j r' o' args' args₁' stored' hcalled' hreturned' halike hargs
    obtain ⟨after', before', hsplit'⟩ := List.append_of_mem hcalled'
    have hresult' := hinv'.good.result hsplit' hreturned'
    rw [← hargs] at hresult'
    exact hresult.alike halike hresult'
  · intro c r hresolve hasync hpermitted haccepts
    obtain ⟨t, hi, hr, hc, hp⟩ := World.call_task hresolve hpermitted
    have hcall : (w.call c).log = .called w.tasks.length r (w.snapshot r.buffers) :: w.log ∧
        (w.call c).Accepts r := by
      simp only [World.call, hresolve, hpermitted, if_true]
      exact ⟨rfl, haccepts⟩
    obtain ⟨hlog, haccepts'⟩ := hcall
    have hinv₁ : (w.call c).Inv := World.inv_call hinv c
    have hpre := hinv.pre (World.resolved hresolve) hpermitted
    obtain ⟨alone, halone, o, args, stored, hreturned⟩ := World.completes hi hr hc hp
      (async_code hasync hpre.kept) (by simp) fun _ => haccepts'
    have hresult : ∀ {xs : List (Input P α)} {o args stored},
        .returned w.tasks.length r (.ok o) args stored ∈ ((w.call c).run xs).log →
        r.Result ((w.snapshot r.buffers).map Prod.snd) o stored (args.map Prod.snd) := by
      intro xs o args stored hreturned
      obtain ⟨es, hes⟩ := World.run_log (w := w.call c) xs
      rw [hlog] at hes
      exact (World.inv_run hinv₁ xs).good.result hes hreturned
    refine ⟨alone, o, args, stored, halone, hreturned, fun others o' args' stored' hreturned' => ?_⟩
    exact (hresult hreturned).unique hasync (hresult hreturned')
  · intro i t r c hi hr hc
    exact World.completes_suspended hinv hstanding hi hr hc
  · intro i t r hi hr hasync hactive
    have hstands := hstanding i t hi r hr hasync
    by_cases hcreated : .created i ∈ w.log
    · exact .inl hcreated
    · refine .inr ⟨hcreated, ?_⟩
      cases hc : t.control with
      | active c => exact absurd hc (hactive c)
      | suspended c | forgotten c =>
        simp only [hc] at hstands
        exact absurd hstands.2.created hcreated
      | unwinding =>
        simp only [hc] at hstands
        exact absurd hstands.created hcreated
      | finished =>
        simp only [hc] at hstands
        rcases hstands with hissued | ⟨e, args, stored, hreturned⟩
        · exact absurd hissued.created hcreated
        · exact ⟨e, args, stored, hreturned, hinv.good.refusal hasync hcreated hreturned⟩
  · intro i t x s k choice hi hc
    exact World.tick_operation hinv hi hc choice
  · intro s b hb
    have haccounts := (hinv.accounts s).1 b hb
    exact ⟨World.futures_le hinv s, haccounts.operations_eq, haccounts.operations_le⟩

end Interference
end Gudra
