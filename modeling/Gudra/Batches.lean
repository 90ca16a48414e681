import Gudra.Specs

/-! The loops of `DoubleGrid`: one launch and one swap for every step. -/
namespace Gudra

open Scope

variable {P : Platform} {α : Type}

/-- Two haloed buffers and a RHS of one shape and one session, apart from each other. -/
structure DoubleGrid.Kept (g : DoubleGrid P) : Prop where
  current_kept : g.current.Kept
  next_kept : g.next.Kept
  rhs_kept : g.rhs.Kept
  next_shape : g.next.shape = g.shape
  rhs_shape : g.rhs.shape = g.shape
  next_session : g.next.storage.session = g.current.storage.session
  rhs_session : g.rhs.storage.session = g.current.storage.session
  apart : [g.current.storage.tensor.storage.id, g.next.storage.tensor.storage.id,
    g.rhs.storage.tensor.storage.id].Nodup
  completed_le : g.completed ≤ P.usizeMax

namespace DoubleGrid

/-- The grid after one completed step. -/
def swapped (g : DoubleGrid P) : DoubleGrid P :=
  ⟨g.next, g.current, g.rhs, g.completed + 1⟩

theorem Kept.swapped {g : DoubleGrid P} (h : g.Kept) (hlt : g.completed + 1 ≤ P.usizeMax) :
    g.swapped.Kept where
  current_kept := h.next_kept
  next_kept := h.current_kept
  rhs_kept := h.rhs_kept
  next_shape := h.next_shape.symm
  rhs_shape := h.rhs_shape.trans h.next_shape.symm
  next_session := h.next_session.symm
  rhs_session := h.rhs_session.trans h.next_session.symm
  apart := by
    have hapart := h.apart
    simp only [List.nodup_cons, List.mem_cons, List.not_mem_nil, or_false, not_or,
      not_false_eq_true, List.nodup_nil, and_true] at hapart ⊢
    exact ⟨⟨Ne.symm hapart.1.1, hapart.2⟩, hapart.1.2⟩
  completed_le := hlt

section Iterate

variable {g : DoubleGrid P} {k : ℕ}

/-- The grid after `k` completed steps. -/
def after (g : DoubleGrid P) (k : ℕ) : DoubleGrid P := swapped^[k] g

theorem after_succ : g.after (k + 1) = (g.after k).swapped := Function.iterate_succ_apply' _ _ _

@[simp] theorem after_completed : (g.after k).completed = g.completed + k := by
  induction k with
  | zero => rfl
  | succ k ih =>
    rw [after_succ]
    simp only [swapped, ih]
    omega

@[simp] theorem after_rhs : (g.after k).rhs = g.rhs := by
  induction k with
  | zero => rfl
  | succ k ih =>
    rw [after_succ]
    exact ih

theorem Kept.after (h : g.Kept) (hle : g.completed + k ≤ P.usizeMax) :
    (g.after k).Kept ∧ (g.after k).shape = g.shape ∧
      (g.after k).current.storage.session = g.current.storage.session := by
  induction k with
  | zero => exact ⟨h, rfl, rfl⟩
  | succ k ih =>
    obtain ⟨hkept, hshape, hsession⟩ := ih (by omega)
    rw [after_succ]
    refine ⟨hkept.swapped ?_, hkept.next_shape.trans hshape, hkept.next_session.trans hsession⟩
    rw [after_completed]
    omega

end Iterate

/-- The contents of both halves of a grid and of its RHS. -/
structure At (grid : DoubleGrid P) (g : Ghost α) (c : List α × List α) (f : List α) : Prop where
  current_eq : g.status grid.current.storage.tensor.storage.id = .settled c.1
  current_len : c.1.length = grid.current.storage.tensor.storage.len
  next_eq : g.status grid.next.storage.tensor.storage.id = .settled c.2
  next_len : c.2.length = grid.next.storage.tensor.storage.len
  rhs_eq : g.status grid.rhs.storage.tensor.storage.id = .settled f
  rhs_len : f.length = grid.rhs.storage.tensor.storage.len

end DoubleGrid

theorem i32OrMax_eq {n : ℕ} (h : n ≤ i32Max) : DoubleGrid.i32OrMax n = n := if_pos h

variable {self : DoubleGrid P} {params : JacobiParams α} {g : Ghost α} {c : List α × List α}
  {f : List α}

theorem operation_wellFormed (h : self.Kept) :
    (self.operation params).WellFormed self.shape := by
  have hh := (bounded_interior self.shape).fst_le
  have hw := (bounded_interior self.shape).snd_le
  have hnext : self.next.storage.tensor.RowMajor self.shape.haloed :=
    h.next_shape ▸ h.next_kept.rowMajor
  have hrhs : self.rhs.storage.tensor.RowMajor self.shape.interior :=
    h.rhs_shape ▸ h.rhs_kept.rowMajor
  rw [DoubleGrid.operation, i32OrMax_eq hh, i32OrMax_eq hw]
  refine .timestep hnext h.current_kept.rowMajor hrhs ?_
  have hapart := h.apart
  simp only [List.nodup_cons, List.mem_cons, List.not_mem_nil, or_false, not_or,
    not_false_eq_true, List.nodup_nil, and_true] at hapart
  intro t ht
  rcases List.mem_cons.mp ht with rfl | ht
  · exact hapart.1.1
  · obtain rfl := List.mem_singleton.mp ht
    exact Ne.symm hapart.2

variable [Scalar α]

/-- One step of the contents of both halves. -/
def Shape2D.advanced (shape : Shape2D P) (params : JacobiParams α) (f : List α)
    (c : List α × List α) : List α × List α :=
  (Reference.timestep shape.interior params c.1 f, c.1)

theorem operation_commit (h : self.Kept) (hat : self.At g c f) :
    (self.operation params).commit (fun id => (g.status id).data) =
      (self.shape.advanced params f c).1 := by
  have hrhs : self.rhs.storage.tensor.RowMajor self.shape.interior :=
    h.rhs_shape ▸ h.rhs_kept.rowMajor
  simp only [DoubleGrid.operation, Launch.commit, hat.current_eq, hat.rhs_eq, Status.data,
    hrhs.extent_eq, Shape2D.advanced]

/-- A successful launch and the swap keep a grid, one step later. -/
theorem DoubleGrid.At.succeed (h : self.Kept) (hat : self.At g c f) :
    self.swapped.At (g.succeed (self.operation params)) (self.shape.advanced params f c) f := by
  have hapart := h.apart
  simp only [List.nodup_cons, List.mem_cons, List.not_mem_nil, or_false, not_or,
    not_false_eq_true, List.nodup_nil, and_true] at hapart
  have hcommit : (self.operation params).commit (fun id => (g.status id).data) =
      (self.shape.advanced params f c).1 := operation_commit h hat
  have hother : ∀ id, id ≠ self.next.storage.tensor.storage.id →
      (g.succeed (self.operation params)).status id = g.status id := by
    intro id hid
    exact Function.update_of_ne hid _ _
  constructor
  · rw [← hcommit]
    exact Function.update_self ..
  · rw [← hcommit]
    exact (operation_wellFormed h).length_commit
  · exact (hother _ hapart.1.1).trans hat.current_eq
  · exact hat.current_len
  · exact (hother _ (Ne.symm hapart.2)).trans hat.rhs_eq
  · exact hat.rhs_len

/-- What a batch owns while it runs. -/
def gridFrame (r : Reservation) (self : DoubleGrid P) : Frame Name Atom :=
  (.charge .operation, .reservation r) :: self.entries

theorem gridFrame_swap {r : Reservation} {rest : Frames Name Atom} :
    Frames.own ((.charge .operation, .charge .operation) ::
      (moveBuffer .next .current ++ moveBuffer .current .next ++ moveBuffer .rhs .rhs))
      (gridFrame r self :: rest) = gridFrame r self.swapped :: rest := by
  simp [Frames.own, Frames.relocate, moveBuffer, gridFrame, DoubleGrid.entries, Buffer.entries,
    DoubleGrid.swapped]

section Loops

variable {C : Terms α} {rest : Frames Name Atom} {session : Session} {r : Reservation}
  {X : Error → Frames Name Atom → Ghost α → Prop}

omit [Scalar α] in
theorem operation_launchable (hkept : self.Kept) (hat : self.At g c f) (hwork : C.work)
    (hsession : session.id = C.session) (hself : self.current.storage.session = session)
    (hlent : C.lent = [])
    (hpermit : C.permit (gridFrame r self :: rest) g (self.operation params)) :
    C.Launchable P (gridFrame r self :: rest) g session.id (self.operation params) := by
  have hmem : ∀ b ∈ self.buffers,
      b.tensor.storage.id ∈ C.exclusive (gridFrame r self :: rest) := by
    intro b hb
    simp only [DoubleGrid.buffers, List.mem_cons, List.not_mem_nil, or_false] at hb
    rcases hb with rfl | rfl | rfl <;>
      simp [Terms.exclusive, gridFrame, DoubleGrid.entries, Buffer.entries]
  refine ⟨hwork, hsession, ⟨_, operation_wellFormed hkept⟩, ?_, ?_, ?_, ?_, ?_, hpermit⟩
  · intro t ht
    rcases List.mem_cons.mp ht with rfl | ht
    · exact ⟨mem_reach_of_exclusive (hmem _ List.mem_cons_self),
        by rw [hkept.current_kept.session_eq, hself], _, hat.current_eq, hat.current_len⟩
    · obtain rfl := List.mem_singleton.mp ht
      exact ⟨mem_reach_of_exclusive (hmem self.rhs.storage (by simp [DoubleGrid.buffers])),
        by rw [hkept.rhs_kept.session_eq, hkept.rhs_session, hself], _, hat.rhs_eq, hat.rhs_len⟩
  · exact hmem self.next.storage (by simp [DoubleGrid.buffers])
  · exact hkept.next_kept.session_eq.trans (by rw [hkept.next_session, hself])
  · exact ⟨_, hat.next_eq, hat.next_len⟩
  · rw [hlent]
    simp

/-- One round of a loop: the launch, then the swap. -/
theorem wpx_round {label : String} {β : Type} {next : DoubleGrid P → Op α β}
    {Q : β → Frames Name Atom → Ghost α → Prop}
    (hl : C.Launchable P (gridFrame r self :: rest) g session.id (self.operation params))
    (hlt : self.completed + 1 ≤ P.usizeMax)
    (hinv : C.inv (gridFrame r self :: rest) (g.succeed (self.operation params)))
    (hinv' : C.inv (gridFrame r self.swapped :: rest) (g.succeed (self.operation params)))
    (hfail : ∀ e, ∀ ks ∈ KernelEvent.failures (self.operation params) g.kernels,
      C.inv (gridFrame r self :: rest) (g.fail (self.operation params) ks) ∧
        X e (gridFrame r self :: rest) (g.fail (self.operation params) ks))
    (hnext : (C.logic P).wpx (next self.swapped) Q X (gridFrame r self.swapped :: rest)
      (g.succeed (self.operation params))) :
    (C.logic P).wpx (do
      Op.execute label session (self.operation params)
      let self ← self.swapCompleted
      next self) Q X (gridFrame r self :: rest) g := by
  have hadd : P.checkedAdd self.completed 1 = some (self.completed + 1) := checkedAdd_eq rfl hlt
  rw [Logic.wpx_bind, wpx_execute]
  refine ⟨hl, ⟨hinv, ?_⟩, fun e ks hks => hfail _ ks hks⟩
  rw [Logic.wpx_bind, DoubleGrid.swapCompleted, Logic.wpx_bind, Logic.wpx_rebind, gridFrame_swap]
  refine ⟨hinv', ?_⟩
  rw [Logic.wpx_bind, wpx_checked hadd]
  exact hnext

/-- The loop of `advance`. -/
theorem wpx_steps (hfree : C.Free) (hwork : C.work) (hlent : C.lent = [])
    (hsession : session.id = C.session) {n : ℕ} (hkept : self.Kept) (hat : self.At g c f)
    (hself : self.current.storage.session = session) (hle : self.completed + n ≤ P.usizeMax)
    {Q : DoubleGrid P → Frames Name Atom → Ghost α → Prop}
    (hX : ∀ e fr g', X e (fr :: rest) g')
    (hQ : ∀ g', (self.after n).At g' ((self.shape.advanced params f)^[n] c) f →
      Q (self.after n) (gridFrame r (self.after n) :: rest) g') :
    (C.logic P).wpx (DoubleGrid.steps session params n self) Q X (gridFrame r self :: rest) g := by
  induction n generalizing self g c with
  | zero => exact hQ g hat
  | succ n ih =>
    have hl := operation_launchable hkept hat hwork hsession hself hlent
      (hfree.permit (gridFrame r self :: rest) g (self.operation params))
    refine wpx_round hl (by omega) (hfree.inv _ _) (hfree.inv _ _)
      (fun e ks _ => ⟨hfree.inv _ _, hX e _ _⟩) ?_
    refine ih (hkept.swapped (by omega)) (hat.succeed hkept) (hkept.next_session.trans hself) ?_ ?_
    · simp only [DoubleGrid.swapped]
      omega
    · intro g' h
      have hshape : self.swapped.shape = self.shape := hkept.next_shape
      rw [hshape] at h
      exact hQ g' h

theorem checkCount_eq_ok {count : ℕ} :
    self.checkCount count = .ok () ↔ self.completed + count ≤ P.usizeMax := by
  rw [DoubleGrid.checkCount, Platform.checkedAdd]
  by_cases h : self.completed + count ≤ P.usizeMax
  · simp [h, okOr, bind, Except.bind, pure, Except.pure]
  · simp [h, okOr, bind, Except.bind]

theorem grid_enter : Frames.enter moveGrid (self.entries :: rest) = self.entries :: [] :: rest := by
  simp [Frames.enter, Frames.relocate, moveGrid, moveBuffer, DoubleGrid.entries, Buffer.entries]

theorem gridFrame_yield {f : Frame Name Atom} :
    Frames.yield moveGrid (gridFrame r self :: f :: rest) =
      [(.charge .operation, .reservation r)] :: (self.entries ++ f) :: rest := by
  simp [Frames.yield, Frames.relocate, moveGrid, moveBuffer, gridFrame, DoubleGrid.entries,
    Buffer.entries]

theorem wpx_advance (hfree : C.Free) (hlent : C.lent = []) {count : ℕ} (hkept : self.Kept)
    (hat : self.At g c f) (hsession : self.current.storage.session.id = C.session)
    (hwork : self.checkCount count = .ok () → C.work)
    {Q : DoubleGrid P → Frames Name Atom → Ghost α → Prop} (hX : ∀ e g', X e [[]] g')
    (hQ : ∀ g', self.checkCount count = .ok () →
      (self.after count).At g' ((self.shape.advanced params f)^[count] c) f →
      Q (self.after count) [(self.after count).entries] g') :
    (C.logic P).wpx (self.advance count params) Q X [self.entries] g := by
  have hinv := hfree.inv
  have hdrop := logic_dropAll P hinv
  rw [DoubleGrid.advance, Logic.wpx_scope, grid_enter]
  simp only [Logic.wpx_bind, wpx_ofExcept, wpx_operation, wpx_bindDevice, logic_inv, hinv, hdrop,
    true_and, eq_true hsession]
  refine ⟨?_, fun e _ => hX e g⟩
  intro _ hok
  refine ⟨fun e => hX e _, hwork hok, fun e => hX _ _, ?_⟩
  refine wpx_steps hfree (hwork hok) hlent hsession hkept hat rfl (checkCount_eq_ok.mp hok)
    (fun e fr g' => hX e g') ?_
  intro g' h
  rw [gridFrame_yield, List.append_nil]
  exact hQ g' hok h

/-- The executions of the first `k` steps, newest first. -/
def DoubleGrid.history (self : DoubleGrid P) (params : JacobiParams α) : ℕ → List (KernelEvent α)
  | 0 => []
  | k + 1 => .completed ((self.after k).operation params) ::
      .submitted ((self.after k).operation params) :: self.history params k

omit [Scalar α] in
theorem length_history {k : ℕ} : (self.history params k).length = 2 * k := by
  induction k with
  | zero => rfl
  | succ k ih =>
    simp only [DoubleGrid.history, List.length_cons, ih]
    omega

omit [Scalar α] in
theorem history_injective {j k : ℕ} (h : self.history params j = self.history params k) :
    j = k := by
  have hlen := congrArg List.length h
  rw [length_history, length_history] at hlen
  omega

omit [Scalar α] in
theorem history_ne_failed {k : ℕ} {l : Launch α} {ks : List (KernelEvent α)} :
    self.history params k ≠ .failed l :: ks := by
  cases k <;> simp [DoubleGrid.history]

omit [Scalar α] in
theorem history_ne_submitted {k : ℕ} {l : Launch α} {ks : List (KernelEvent α)} :
    self.history params k ≠ .submitted l :: ks := by
  cases k <;> simp [DoubleGrid.history]

/-- The loop of the future of `advance_async`: `k` steps are done and `n` remain. -/
theorem wpx_stepsAsync (hwork : C.work) (hlent : C.lent = []) (hsession : session.id = C.session)
    {n k : ℕ} (hkept : self.Kept) (hself : self.current.storage.session = session)
    (hle : self.completed + (k + n) ≤ P.usizeMax) (hkernels : g.kernels = self.history params k)
    (hpolled : g.polled = true) (hstop : g.stopped = false)
    (hat : (self.after k).At g ((self.shape.advanced params f)^[k] c) f)
    (hpermit : ∀ j g', j < k + n → g'.polled = true → g'.stopped = false →
      g'.kernels = self.history params j →
      (self.after j).At g' ((self.shape.advanced params f)^[j] c) f →
      C.permit (gridFrame r (self.after j) :: rest) g' ((self.after j).operation params))
    (hheld : ∀ j j' g', g'.kernels = self.history params j' →
      C.inv (gridFrame r (self.after j) :: rest) g')
    (hstopped : ∀ e fr g' j, j < k + n → g'.polled = true → g'.stopped = true →
      g'.kernels = self.history params j → C.inv (fr :: rest) g' ∧ X e (fr :: rest) g')
    (hfailed : ∀ e fr g' l ks, g'.polled = true → g'.kernels = .failed l :: ks →
      C.inv (fr :: rest) g' ∧ X e (fr :: rest) g')
    {Q : DoubleGrid P → Frames Name Atom → Ghost α → Prop}
    (hQ : ∀ g', g'.polled = true → g'.stopped = false → g'.kernels = self.history params (k + n) →
      (self.after (k + n)).At g' ((self.shape.advanced params f)^[k + n] c) f →
      Q (self.after (k + n)) (gridFrame r (self.after (k + n)) :: rest) g') :
    (C.logic P).wpx (DoubleGrid.stepsAsync session params n (self.after k)) Q X
      (gridFrame r (self.after k) :: rest) g := by
  induction n generalizing k g with
  | zero => exact hQ g hpolled hstop hkernels hat
  | succ n ih =>
    obtain ⟨hkept', hshape, hsession'⟩ := hkept.after (k := k) (by omega)
    have hl := operation_launchable hkept' hat hwork hsession (hsession'.trans hself) hlent
      (hpermit k g (by omega) hpolled hstop hkernels hat)
    rw [DoubleGrid.stepsAsync, Logic.wpx_bind, wpx_bindDevice]
    refine ⟨hwork, fun e => hstopped _ _ _ k (by omega) hpolled rfl hkernels,
      hheld k k _ hkernels, ?_⟩
    have hswap : (self.after k).swapped = self.after (k + 1) := self.after_succ.symm
    have hsucceed : (g.succeed ((self.after k).operation params)).kernels =
        self.history params (k + 1) := by
      rw [DoubleGrid.history, ← hkernels]
      rfl
    refine wpx_round hl ?_ (hheld k _ _ hsucceed) (hswap ▸ hheld (k + 1) _ _ hsucceed) ?_ ?_
    · rw [DoubleGrid.after_completed]
      omega
    · intro e ks hks
      simp only [KernelEvent.failures, List.mem_cons, List.not_mem_nil, or_false] at hks
      rcases hks with rfl | rfl | rfl <;> exact hfailed _ _ _ _ _ hpolled rfl
    · rw [hswap]
      have hnext : (self.after k).swapped.At (g.succeed ((self.after k).operation params)) _ f :=
        hat.succeed hkept'
      rw [hswap, hshape, ← Function.iterate_succ_apply' (self.shape.advanced params f)] at hnext
      have hk : k + 1 + n = k + (n + 1) := by omega
      refine ih (by omega) hsucceed hpolled hstop hnext ?_ ?_ ?_
      · rwa [hk]
      · rwa [hk]
      · rwa [hk]

theorem gridFrame_hold {s : ℕ} : Frames.yield DoubleGrid.capture
    (Frames.push [(Name.charge .operation, Atom.reservation ⟨s, 0, false⟩)]
      (Frames.enter moveGrid [self.entries])) = [[], gridFrame ⟨s, 0, false⟩ self] := by
  rw [grid_enter]
  simp [Frames.yield, Frames.push, Frames.relocate, DoubleGrid.capture, moveGrid, moveBuffer,
    gridFrame, DoubleGrid.entries, Buffer.entries]

theorem gridFrame_enter : Frames.enter DoubleGrid.capture [gridFrame r self] =
    [gridFrame r self, []] := by
  simp [Frames.enter, Frames.relocate, DoubleGrid.capture, moveGrid, moveBuffer, gridFrame,
    DoubleGrid.entries, Buffer.entries]

theorem gridFrame_own : Frames.own [(.charge .operation, .charge .operation)]
    (gridFrame r self :: rest) = gridFrame r self :: rest := by
  simp [Frames.own, Frames.relocate, gridFrame, DoubleGrid.entries, Buffer.entries]

/-- Swaps neither lose nor copy what a batch owns. -/
theorem gridFrame_perm {k : ℕ} :
    (Frames.resources [gridFrame r (self.after k)]).Perm (Frames.resources [gridFrame r self]) := by
  induction k with
  | zero => exact .refl _
  | succ k ih =>
    have hswap := own_perm ((.charge .operation, .charge .operation) ::
      (moveBuffer .next .current ++ moveBuffer .current .next ++ moveBuffer .rhs .rhs))
      [gridFrame r (self.after k)]
    rw [gridFrame_swap, ← DoubleGrid.after_succ] at hswap
    exact hswap.trans ih

theorem wpx_advanceAsync (hlent : C.lent = []) {count : ℕ} (hkept : self.Kept)
    (hat : self.At g c f) (hsession : self.current.storage.session.id = C.session)
    (hwork : self.checkCount count = .ok () → C.work) (hpolled : g.polled = false)
    (hstop : g.stopped = false) (hkernels : g.kernels = []) {held : List Atom}
    (hheld : held = Frames.resources
      [gridFrame ⟨self.current.storage.session.id, 0, false⟩ self])
    (hidle : ∀ fs : Frames Name Atom, fs.resources.Perm held → C.idle fs)
    (hpermit : ∀ (fs : Frames Name Atom) j g', fs.resources.Perm held →
      fs = [gridFrame ⟨self.current.storage.session.id, 0, false⟩ (self.after j), []] → j < count →
      g'.polled = true → g'.stopped = false → g'.kernels = self.history params j →
      (self.after j).At g' ((self.shape.advanced params f)^[j] c) f →
      C.permit fs g' ((self.after j).operation params))
    (hinvHeld : ∀ (fs : Frames Name Atom) j g', fs.resources.Perm held →
      g'.kernels = self.history params j → C.inv fs g')
    (hinvStart : ∀ fs g', g'.polled = false → g'.kernels = [] → C.inv fs g')
    (hinvStopped : ∀ fs j g', g'.stopped = true → g'.kernels = self.history params j → C.inv fs g')
    (hinvFailed : ∀ fs g' l ks, g'.kernels = .failed l :: ks → C.inv fs g')
    (hinvDone : ∀ fs g', g'.kernels = self.history params count → C.inv fs g')
    {Q : DoubleGrid P → Frames Name Atom → Ghost α → Prop}
    (hX : ∀ e g', g'.polled = false →
      (self.checkCount count = .error e ∨ g'.refused = some e) → X e [[]] g')
    (hfail : ∀ e g', g'.polled = true → g'.kernels ≠ self.history params count → X e [[]] g')
    (hQ : ∀ g', self.checkCount count = .ok () → g'.polled = true → g'.stopped = false →
      g'.kernels = self.history params count →
      (self.after count).At g' ((self.shape.advanced params f)^[count] c) f →
      Q (self.after count) [(self.after count).entries] g') :
    (C.logic P).wpx (self.advanceAsync count params) Q X [self.entries] g := by
  rw [DoubleGrid.advanceAsync, Logic.wpx_bind, Logic.wpx_scope]
  have hinv : ∀ fs g', g'.polled = false → g'.kernels = [] → C.inv fs g' := hinvStart
  refine ⟨hinv _ _ hpolled hkernels, ?_⟩
  rw [Logic.wpx_bind, wpx_ofExcept]
  refine ⟨?_, fun e he => ⟨⟨fun _ _ => hinv _ _ hpolled hkernels, hinv _ _ hpolled hkernels⟩, ?_⟩⟩
  swap
  · rw [grid_enter]
    exact hX e g hpolled (.inl he)
  intro _ hok
  rw [wpx_operation]
  refine ⟨hsession, fun e => ⟨hinv _ _ hpolled hkernels, ⟨fun _ _ => hinv _ _ hpolled hkernels,
    hinv _ _ hpolled hkernels⟩, ?_⟩, hinv _ _ hpolled hkernels, hinv _ _ hpolled hkernels,
    ⟨fun _ _ => hinv _ _ hpolled hkernels, hinv _ _ hpolled hkernels⟩, ?_⟩
  · rw [grid_enter]
    exact hX e _ hpolled (.inr rfl)
  rw [gridFrame_hold, List.tail_cons, Logic.wpx_bind, wpx_lazy]
  have hperm : ∀ j, (Frames.resources [gridFrame
      ⟨self.current.storage.session.id, 0, false⟩ (self.after j), []]).Perm held := by
    intro j
    rw [hheld]
    simpa using gridFrame_perm (k := j)
  have hstart : (Frames.resources [gridFrame
      ⟨self.current.storage.session.id, 0, false⟩ self]).Perm held := .of_eq hheld.symm
  refine ⟨hwork hok, hpolled, hidle _ hstart, hinvHeld _ 0 _ hstart hkernels, ?_⟩
  rw [Logic.wpx_scope, gridFrame_enter]
  refine ⟨hinvHeld _ 0 _ (hperm 0) hkernels, ?_⟩
  rw [Logic.wpx_bind, Logic.wpx_rebind, gridFrame_own]
  refine ⟨hinvHeld _ 0 _ (hperm 0) hkernels, ?_⟩
  have hcount : 0 + count = count := Nat.zero_add _
  have hat : (self.after 0).At { g with polled := true } c f :=
    ⟨hat.current_eq, hat.current_len, hat.next_eq, hat.next_len, hat.rhs_eq, hat.rhs_len⟩
  refine wpx_stepsAsync (g := { g with polled := true }) (k := 0) (hwork hok) hlent hsession hkept rfl
    ?_ hkernels rfl hstop hat ?_ ?_ ?_
    ?_ ?_
  · rw [hcount]
    exact checkCount_eq_ok.mp hok
  · intro j g' hj
    exact hpermit _ j g' (hperm j) rfl (hcount ▸ hj)
  · exact fun j j' g' => hinvHeld _ j' g' (hperm j)
  · intro e fr g' j hj hp hs hk
    have hinv : ∀ fs, C.inv fs g' := fun fs => hinvStopped fs j g' hs hk
    refine ⟨hinv _, ⟨fun _ _ => hinv _, hinv _⟩, hfail e g' hp ?_⟩
    intro hdone
    have hcount := history_injective (hk.symm.trans hdone)
    omega
  · intro e fr g' l ks hp hk
    have hinv : ∀ fs, C.inv fs g' := fun fs => hinvFailed fs g' l ks hk
    refine ⟨hinv _, ⟨fun _ _ => hinv _, hinv _⟩, hfail e g' hp ?_⟩
    exact fun hdone => history_ne_failed (hdone.symm.trans hk)
  · intro g' hp hs hk hat'
    rw [hcount] at hk hat' ⊢
    have hinv : ∀ fs, C.inv fs g' := fun fs => hinvDone fs g' hk
    rw [gridFrame_yield, List.append_nil]
    exact ⟨hinv _, ⟨fun _ _ => hinv _, hinv _⟩, hQ g' hok hp hs hk hat'⟩

/-- What `observe` owns before and after it retains the tensor for the copy. -/
def observeFrame (self : DoubleGrid P) : Frame Name Atom :=
  [(.charge .operation, .reservation ⟨self.current.storage.session.id, 0, false⟩),
    (.charge .reservation, .reservation self.current.storage.reservation),
    (.tensor .tensor, .storage self.current.storage.tensor.storage)] ++
    (self.next.storage.entries .next ++ self.rhs.storage.entries .rhs)

def retainedFrame (self : DoubleGrid P) : Frame Name Atom :=
  [(.tensor .retained, .storage self.current.storage.tensor.storage),
    (.charge .operation, .reservation ⟨self.current.storage.session.id, 0, false⟩),
    (.charge .reservation, .reservation self.current.storage.reservation)] ++
    (self.next.storage.entries .next ++ self.rhs.storage.entries .rhs)

theorem observe_push : Frames.push
    [(Name.charge .operation, Atom.reservation ⟨self.current.storage.session.id, 0, false⟩)]
    (Frames.own [(.charge .current, .charge .reservation), (.tensor .current, .tensor .tensor)]
      (self.entries :: rest)) = observeFrame self :: rest := by
  simp [Frames.own, Frames.push, Frames.relocate, DoubleGrid.entries, Buffer.entries, observeFrame]

theorem observe_retain : Frames.own [(.tensor .tensor, .tensor .retained)]
    (observeFrame self :: rest) = retainedFrame self :: rest := by
  simp [Frames.own, Frames.relocate, Buffer.entries, observeFrame, retainedFrame]

theorem observe_yield {f : Frame Name Atom} : Frames.yield moveGrid
    (Frames.own [(.tensor .retained, .tensor .current), (.charge .reservation, .charge .current)]
      (retainedFrame self :: f :: rest)) =
    [(.charge .operation, .reservation ⟨self.current.storage.session.id, 0, false⟩)] ::
      (self.entries ++ f) :: rest := by
  simp [Frames.own, Frames.yield, Frames.relocate, moveGrid, moveBuffer, DoubleGrid.entries,
    Buffer.entries, retainedFrame]

theorem wpx_observe (hinv : ∀ fs g, C.inv fs g) (hwork : C.work) (hat : self.At g c f)
    (hsession : self.current.storage.session.id = C.session)
    {Q : DoubleGrid P × List α → Frames Name Atom → Ghost α → Prop} (hX : ∀ e g', X e [[]] g')
    (hQ : Q (self, c.1) [self.entries] g) :
    (C.logic P).wpx self.observe Q X [self.entries] g := by
  have hdrop := logic_dropAll P hinv
  have hdata : g.data self.current.storage.tensor.storage = c.1 :=
    Ghost.data_of_status hat.current_eq
  have hreach : self.current.storage.tensor.storage.id ∈ C.reach [retainedFrame self, []] :=
    List.mem_cons_self
  rw [DoubleGrid.observe, Logic.wpx_scope, grid_enter]
  simp only [Logic.wpx_bind, Logic.wpx_rebind, wpx_operation, wpx_bindDevice, wpx_copy,
    wpx_ofExcept, wpx_attempt, logic_inv, hinv, hdrop, true_and, hwork, eq_true hsession,
    observe_push, observe_retain, hdata]
  refine ⟨fun e => hX e _, fun e => hX _ _, hreach, ⟨_, hat.current_eq, hat.current_len⟩, ?_, ?_, ?_⟩
  · intro e
    exact ⟨by rintro _ ⟨⟩, fun e _ => hX e _⟩
  · rintro _ ⟨⟩
    refine ⟨?_, fun e => hX e g⟩
    simp only [Logic.wpx_pure, observe_yield, List.tail_cons, List.append_nil]
    exact hQ
  · exact fun e _ => hX e g

section Host

variable {self : Field2D P}

theorem intoHost_enter : Frames.enter (moveBuffer .self .self) [self.storage.entries .self] =
    [self.storage.entries .self, []] := by
  simp [Frames.enter, Frames.relocate, moveBuffer, Buffer.entries]

theorem intoHost_own : Frames.own [(.charge .self, .charge .reservation),
      (.tensor .self, .tensor .tensor)]
    (Frames.push [(Name.charge .operation, Atom.reservation r)]
      (self.storage.entries .self :: rest)) =
    [(.charge .reservation, .reservation self.storage.reservation),
      (.tensor .tensor, .storage self.storage.tensor.storage),
      (.charge .operation, .reservation r)] :: rest := by
  simp [Frames.own, Frames.push, Frames.relocate, Buffer.entries]

theorem intoHost_retain {s : Storage} {q : Reservation} :
    Frames.own [(.tensor .tensor, .tensor .retained)]
      ([(.charge .reservation, .reservation q), (.tensor .tensor, .storage s),
        (.charge .operation, .reservation r)] :: rest) =
    [(.tensor .retained, .storage s), (.charge .reservation, .reservation q),
      (.charge .operation, .reservation r)] :: rest := by
  simp [Frames.own, Frames.relocate]

theorem intoHost_discard {s : Storage} {q : Reservation} :
    Frames.enter [(.tensor .retained, .tensor .retained)]
      ([(.tensor .retained, .storage s), (.charge .reservation, .reservation q),
        (.charge .operation, .reservation r)] :: rest) =
    [(.tensor .retained, .storage s)] :: [(.charge .reservation, .reservation q),
      (.charge .operation, .reservation r)] :: rest := by
  simp [Frames.enter, Frames.relocate]

end Host

/-- The reading of a field, which consumes it. -/
theorem wpx_intoHost (hinv : ∀ fs g, C.inv fs g) {self : Field2D P}
    (hwork : g.uncertain self.storage.tensor.storage.id = false → C.work)
    (hready : g.uncertain self.storage.tensor.storage.id = false →
      g.Ready self.storage.tensor.storage)
    (hsession : self.storage.session.id = C.session)
    {Q : List α → Frames Name Atom → Ghost α → Prop} (hX : ∀ e g', X e [[]] g')
    (hQ : g.uncertain self.storage.tensor.storage.id = false →
      Q (g.data self.storage.tensor.storage) [[]] g) :
    (C.logic P).wpx self.intoHost Q X [self.storage.entries .self] g := by
  have hdrop := logic_dropAll P hinv
  rw [Field2D.intoHost, Logic.wpx_scope, intoHost_enter]
  simp only [Logic.wpx_bind, Logic.wpx_rebind, wpx_operation, wpx_bindDevice, wpx_copy,
    wpx_completions, Logic.wpx_discard, wpx_ofExcept, logic_inv, hinv, hdrop, true_and,
    eq_true hsession, intoHost_own, intoHost_retain, intoHost_discard, List.tail_cons]
  intro uncertain hagree
  have hagree := hagree self.storage.tensor.storage.id List.mem_cons_self
  rw [hagree]
  refine ⟨?_, fun e _ => hX e g⟩
  intro _ hok
  have hcertain := ensureReady_eq_ok.mp hok
  refine ⟨fun e => hX e _, hwork hcertain, fun e => hX _ _, hwork hcertain, List.mem_cons_self,
    hready hcertain, ?_, ?_, by rintro _ ⟨⟩⟩
  · intro e
    exact ⟨by rintro _ ⟨⟩, fun e _ => hX e _⟩
  · rintro _ ⟨⟩
    exact hQ hcertain

end Loops
end Gudra
