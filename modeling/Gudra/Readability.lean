import Gudra.Aliasing
import Gudra.Locality

/-! Only completed results are ever readable. -/
namespace Gudra

open Scope Interleave

variable {P : Platform} {α : Type}

/-- The allocation that an event writes. -/
def Event.target? : Event P α → Option ℕ
  | uploaded _ s _ => some s.id
  | submitted _ l | completed _ l | failed _ l => some l.output.storage.id
  | _ => none

/-- The event needs the device. -/
def Event.Works (e : Event P α) : Prop :=
  (∃ i b, e = .device i b) ∨ ∃ id, e.target? = some id

/-- `data` is what was last committed to allocation `id`: an upload, or the stencil of the committed
contents of the inputs of an execution that succeeded. Nothing has been submitted to it since. -/
inductive Committed [Scalar α] : List (Event P α) → ℕ → List α → Prop where
  | uploaded {log : List (Event P α)} (i : ℕ) (s : Storage) (data : List α) :
      Committed (.uploaded i s data :: log) s.id data
  | jacobi {log : List (Event P α)} (i : ℕ) (output : Tensor) (views : ReadViews) (rhs : Tensor)
      (omega hSquared : α) {u f : List α} (hu : Committed log views.center.base.storage.id u)
      (hf : Committed log rhs.storage.id f) :
      Committed (.completed i (.jacobi output views rhs omega hSquared) :: log) output.storage.id
        (Reference.jacobi output.extent ⟨omega, hSquared⟩ u f)
  | laplacian {log : List (Event P α)} (i : ℕ) (output : Tensor) (views : ReadViews)
      (inverseHSquared : α) {u : List α} (hu : Committed log views.center.base.storage.id u) :
      Committed (.completed i (.laplacian output views inverseHSquared) :: log) output.storage.id
        (Reference.laplacian output.extent ⟨inverseHSquared⟩ u)
  | timestep {log : List (Event P α)} (i : ℕ) (output input rhs : Tensor) (height width : ℤ)
      (omega hSquared : α) {u f : List α} (hu : Committed log input.storage.id u)
      (hf : Committed log rhs.storage.id f) :
      Committed (.completed i (.timestep output input rhs height width omega hSquared) :: log)
        output.storage.id (Reference.timestep rhs.extent ⟨omega, hSquared⟩ u f)
  | later {log : List (Event P α)} {id : ℕ} {data : List α} (e : Event P α)
      (he : e.target? ≠ some id) (h : Committed log id data) : Committed (e :: log) id data

section Store

variable [Scalar α] {log : List (Event P α)} {e : Event P α} {id i : ℕ} {data : List α}
  {l : Launch α}

theorem status_of_target (he : e.target? ≠ some id) :
    status (e :: log) id = status log id := by
  have hne : ∀ {x : ℕ}, e.target? = some x → id ≠ x := fun hx he' => he (he' ▸ hx)
  cases e with
  | uploaded i s data => exact Function.update_of_ne (hne rfl) _ _
  | submitted i l => exact Function.update_of_ne (hne rfl) _ _
  | completed i l => exact Function.update_of_ne (hne rfl) _ _
  | failed i l => exact Function.update_of_ne (hne rfl) _ _
  | _ => rfl

/-- A successful execution commits its stencil. -/
theorem committed_completed (h : Event.Good log (.completed i l))
    (hinput : ∀ {id data}, status log id = .settled data → Committed log id data) :
    Committed (.completed i l :: log) l.output.storage.id
      (l.commit fun id => (status log id).data) := by
  obtain ⟨-, -, hsettled⟩ := h
  have hread : ∀ t ∈ l.inputs, Committed log t.storage.id (status log t.storage.id).data := by
    intro t ht
    obtain ⟨data, hdata⟩ := hsettled t ht
    have hcommitted := hinput hdata
    rwa [hdata]
  cases l with
  | timestep output input rhs height width omega hSquared =>
    have hu := hread input List.mem_cons_self
    have hf := hread rhs (List.mem_cons_of_mem _ List.mem_cons_self)
    exact .timestep i output input rhs height width omega hSquared hu hf
  | jacobi output views rhs omega hSquared =>
    have hu := hread views.center.base List.mem_cons_self
    have hf := hread rhs (List.mem_append_right _ List.mem_cons_self)
    exact .jacobi i output views rhs omega hSquared hu hf
  | laplacian output views inverseHSquared =>
    have hu := hread views.center.base List.mem_cons_self
    exact .laplacian i output views inverseHSquared hu

/-- The abstract store holds what was last committed. -/
theorem committed_of_status (h : GoodLog log) (hs : status log id = .settled data) :
    Committed log id data := by
  induction log generalizing id data with
  | nil => cases hs
  | cons e log ih =>
    by_cases he : e.target? = some id
    · cases e with
      | uploaded i s d =>
        obtain rfl := Option.some.inj he
        have hself : status (.uploaded i s d :: log) s.id = .settled d := Function.update_self ..
        obtain rfl := Status.settled.inj (hself.symm.trans hs)
        exact .uploaded i s d
      | submitted i l =>
        obtain rfl := Option.some.inj he
        have hself : status (.submitted i l :: log) l.output.storage.id = .busy :=
          Function.update_self ..
        cases hself.symm.trans hs
      | completed i l =>
        obtain rfl := Option.some.inj he
        have hself : status (.completed i l :: log) l.output.storage.id =
            .settled (l.commit fun id => (status log id).data) := Function.update_self ..
        obtain rfl := Status.settled.inj (hself.symm.trans hs)
        exact committed_completed h.1 fun hs => ih h.2 hs
      | failed i l =>
        obtain rfl := Option.some.inj he
        have hself : status (.failed i l :: log) l.output.storage.id = .broken :=
          Function.update_self ..
        cases hself.symm.trans hs
      | _ => cases he
    · exact .later e he (ih h.2 ((status_of_target he).symm.trans hs))

end Store

/-! ### Calls on what an execution broke -/

section Calls

variable [Scalar α] {log before : List (Event P α)} {i j : ℕ} {r : Request P α} {u : ℕ → Bool}
  {m : Addr → α} {l : Launch α}

omit [Scalar α] in
/-- A task starts once. -/
theorem split_unique {e e' : Event P α} {after after' before before' : List (Event P α)}
    (h : after ++ e :: before = after' ++ e' :: before') (he : e.task = i) (he' : e'.task = i)
    (hfresh : ∀ x ∈ before, x.task ≠ i) (hfresh' : ∀ x ∈ before', x.task ≠ i) :
    e = e' ∧ before = before' := by
  induction after generalizing after' with
  | nil =>
    cases after' with
    | nil => exact List.cons.inj h
    | cons x after' =>
      obtain ⟨rfl, hrest⟩ := List.cons.inj h
      exact absurd he' (hfresh _ (hrest ▸ List.mem_append_right _ List.mem_cons_self))
  | cons y after ih =>
    cases after' with
    | nil =>
      obtain ⟨rfl, hrest⟩ := List.cons.inj h
      exact absurd he (hfresh' _ (hrest ▸ List.mem_append_right _ List.mem_cons_self))
    | cons x after' => exact ih (List.cons.inj h).2

/-- What is told of a task is what its call recorded. -/
theorem Told.unique (h : Told log i r before u m) (hlog : GoodLog log) {r' : Request P α}
    {args : List (Bool × List α)} {after before' : List (Event P α)}
    (hcalled : log = after ++ .called i r' args :: before') :
    r' = r ∧ args = arguments u m r.buffers ∧ before' = before := by
  obtain ⟨after', hafter⟩ := h.called
  have hgood : GoodLog (after ++ .called i r' args :: before') := hcalled ▸ hlog
  obtain ⟨he, hbefore⟩ :=
    split_unique (hcalled.symm.trans hafter) rfl rfl hgood.good.1 h.fresh
  cases he
  exact ⟨rfl, rfl, hbefore⟩

theorem Told.good_before (h : Told log i r before u m) (hlog : GoodLog log) : GoodLog before := by
  obtain ⟨after, rfl⟩ := h.called
  have hgood : GoodLog (.called i r (arguments u m r.buffers) :: before) := hlog.of_append
  exact hgood.2

/-- A call that passes names no buffer that a failed execution wrote. -/
theorem Told.unbroken (h : Told log i r before u m) (hlog : GoodLog log)
    (hcheck : r.check u = .ok ()) {b : Buffer P} (hb : b ∈ r.buffers)
    (hf : .failed j l ∈ before) : l.output.storage.id ≠ b.id := by
  obtain ⟨data, hdata, -⟩ := ready_of_check h.pre hcheck b hb
  exact ne_of_failed (h.good_before hlog) hdata hf

/-- Every event that needs the device follows a check that passed. -/
theorem check_of_works {e : Event P α} (h : GoodLog (e :: log)) (hw : e.Works) :
    ∃ r before u m, Told log e.task r before u m ∧ r.check u = .ok () := by
  have hsubmitted : ∀ {log : List (Event P α)} {i : ℕ} {l : Launch α} {ks : List (KernelEvent α)},
      GoodLog log → kernelsOf i log = ks → .submitted l ∈ ks →
      ∃ r before u m, Told log i r before u m ∧ r.check u = .ok () := by
    intro log i l ks hlog hks hmem
    obtain ⟨after, before, rfl⟩ := List.append_of_mem (submitted_of_kernelsOf (hks ▸ hmem))
    obtain ⟨r, b, u, m, htold, hbegins⟩ := hlog.good
    refine ⟨r, b, u, m, ?_, hbegins.check⟩
    have happend := htold.append (after ++ [.submitted i l])
    rwa [List.append_assoc] at happend
  obtain ⟨hgood, hlog⟩ := h
  rcases hw with ⟨i, b, rfl⟩ | ⟨id, hid⟩
  · exact hgood
  · cases e with
    | uploaded i s data => exact hgood.2.2
    | submitted i l =>
      obtain ⟨r, before, u, m, htold, hbegins⟩ := hgood
      exact ⟨r, before, u, m, htold, hbegins.check⟩
    | completed i l =>
      obtain ⟨-, ⟨ks, hks⟩, -⟩ := hgood
      exact hsubmitted hlog hks List.mem_cons_self
    | failed i l =>
      rcases hgood with ⟨r, before, u, m, htold, hbegins⟩ | ⟨ks, hks⟩ | ⟨ks, hks⟩
      · exact ⟨r, before, u, m, htold, hbegins.check⟩
      · exact hsubmitted hlog hks List.mem_cons_self
      · exact hsubmitted hlog hks (List.mem_cons_of_mem _ List.mem_cons_self)
    | _ => cases hid

/-- A call whose check fails does not reach the device. -/
theorem idle_of_rejected {after log : List (Event P α)} {args : List (Bool × List α)}
    (h : GoodLog log) (hlog : log = after ++ .called i r args :: before)
    (hcheck : ∀ u m, Told log i r before u m → r.check u ≠ .ok ()) :
    ∀ e ∈ log, e.task = i → ¬ e.Works := by
  intro e he htask hworks
  obtain ⟨after', older, rfl⟩ := List.append_of_mem he
  obtain ⟨r', b', u, m, htold, hok⟩ := check_of_works h.of_append hworks
  rw [htask] at htold
  have htold' := htold.append (after' ++ [e])
  rw [List.append_assoc] at htold'
  obtain ⟨rfl, -, rfl⟩ := htold'.unique h hlog
  exact hcheck u m htold' hok

/-- And it returns an error. -/
theorem error_of_rejected {after log : List (Event P α)} {args args' : List (Bool × List α)}
    {r' : Request P α} {result : Except Error (Outcome P α)} {stored : List (List α)}
    (h : GoodLog log) (hlog : log = after ++ .called i r args :: before)
    (hcheck : ∀ u m, Told log i r before u m → r.check u ≠ .ok ())
    (hreturned : .returned i r' result args' stored ∈ log) : ∃ e, result = .error e := by
  obtain ⟨after', older, rfl⟩ := List.append_of_mem hreturned
  obtain ⟨b', u, m, htold, -, hends⟩ := h.good
  have htold' := htold.append (after' ++ [.returned i r' result args' stored])
  rw [List.append_assoc] at htold'
  obtain ⟨rfl, -, rfl⟩ := htold'.unique h hlog
  cases result with
  | error e => exact ⟨e, rfl⟩
  | ok o => exact absurd hends.1 (hcheck u m htold')

end Calls

section Results

variable [Scalar α] {log before : List (Event P α)} {i : ℕ} {r : Request P α} {u : ℕ → Bool}
  {m : Addr → α}

/-- The buffers `bs` were last committed with `contents`. -/
def Commits (log : List (Event P α)) (bs : List (Buffer P)) (contents : List (List α)) : Prop :=
  List.Forall₂ (fun b data => Committed log b.id data) bs contents

theorem Settled.commits {bs : List (Buffer P)} {contents : List (List α)}
    (h : Settled log bs contents) (hlog : GoodLog log) : Commits log bs contents :=
  h.imp fun _ _ hs => committed_of_status hlog hs

/-- A call that passes starts on what was last committed. -/
theorem Told.commits (h : Told log i r before u m) (hlog : GoodLog log)
    (hcheck : r.check u = .ok ()) :
    Commits before r.buffers ((arguments u m r.buffers).map Prod.snd) := by
  rw [arguments, List.map_map, Commits, List.forall₂_map_right_iff, List.forall₂_same]
  intro b hb
  obtain ⟨data, hdata, hlen⟩ := ready_of_check h.pre hcheck b hb
  have hcontents : contents m b.tensor.storage = data := (h.holds _ _ hdata).contents_eq hlen
  have hcommitted : Committed before b.id data := committed_of_status (h.good_before hlog) hdata
  rwa [← hcontents] at hcommitted

end Results

section Reads

variable [Scalar α]

/-- In every run, whatever the backend does: a call that succeeds returns its result on the last
committed contents of its arguments, and commits what it returns; a field is read as it was last
committed; what a failed execution wrote stays flagged, and every call that names it is rejected
without device work; a call that fails before its execution changes no buffer, and no call changes
what is not its own. -/
theorem only_committed_readable (memory : Addr → α) (inputs : List (Input P α)) :
    let w := (World.init P memory).run inputs
    (∀ after i r o args stored log,
      w.log = after ++ .returned i r (.ok o) args stored :: log →
      ∃ later before data, log = later ++ .called i r data :: before ∧
        Commits before r.buffers (data.map Prod.snd) ∧
        r.Result (data.map Prod.snd) o stored (args.map Prod.snd) ∧
        Commits log o.stored stored ∧ Commits log r.borrowed (args.map Prod.snd)) ∧
    (∀ after i f data args stored log,
      w.log = after ++ .returned i (.intoHost f) (.ok (.host data)) args stored :: log →
      ∃ later before args', log = later ++ .called i (.intoHost f) args' :: before ∧
        Committed before f.storage.id data) ∧
    (∀ j l, .failed j l ∈ w.log → ∀ n f, (n, Owner.field f) ∈ w.owners →
      f.storage.id = l.output.storage.id → w.uncertain f.storage.id = true) ∧
    (∀ after i r args before j l f, w.log = after ++ .called i r args :: before →
      .failed j l ∈ before → .field f ∈ r.named → f.storage.id = l.output.storage.id →
      (∀ e ∈ w.log, e.task = i → ¬ e.Works) ∧ ∀ r' result args' stored,
        .returned i r' result args' stored ∈ w.log → ∃ e, result = .error e) ∧
    (∀ (i : ℕ) (t : Task P α) id uncertain k, w.tasks[i]? = some t →
      t.control = .active (.eff (.setCompletion id uncertain) k) →
      ∀ j l, .failed j l ∈ w.log → l.output.storage.id ≠ id) ∧
    (∀ after i r e args stored log, w.log = after ++ .returned i r (.error e) args stored :: log →
      kernelsOf i log = [] →
      ∃ args', .called i r args' ∈ log ∧ (r.owned = [] → args = args')) ∧
    ∀ (i : ℕ) (t : Task P α) choice id, w.tasks[i]? = some t → id ∉ t.exclusive → id < w.nextStorage →
      Untouched w (w.tick i choice) id := by
  intro w
  have hinv : w.Inv := World.inv_run (World.inv_init memory) inputs
  refine ⟨?_, ?_, ?_, ?_, ?_, ?_, ?_⟩
  · intro after i r o args stored log he
    have hlog := he ▸ hinv.good
    obtain ⟨before, u, m, htold, -, hcheck, -, hresult, -, -, -, hstored, hborrowed⟩ := hlog.good
    have hrest : GoodLog log := hlog.of_append.2
    obtain ⟨later, hlater⟩ := htold.called
    exact ⟨later, before, _, hlater, htold.commits hrest hcheck, hresult, hstored.commits hrest,
      hborrowed.commits hrest⟩
  · intro after i f data args stored log he
    have hlog := he ▸ hinv.good
    obtain ⟨before, u, m, htold, -, hends⟩ := hlog.good
    obtain ⟨later, hlater⟩ := htold.called
    refine ⟨later, before, _, hlater, ?_⟩
    obtain ⟨d, hd, hlen⟩ := ready_of_check htold.pre hends.1 f.storage List.mem_cons_self
    have hrest : GoodLog log := hlog.of_append.2
    have hresult : [contents m f.storage.tensor.storage] = [data] := hends.2.2.1
    have hcontents := (htold.holds _ _ hd).contents_eq hlen
    obtain rfl : d = data := hcontents.symm.trans (List.cons.inj hresult).1
    exact committed_of_status (htold.good_before hrest) hd
  · intro j l hf n f hmem hid
    have hready := (hinv.owners _ hmem).ready
    by_contra hne
    have hclear : w.uncertain f.storage.id = false := by simpa using hne
    obtain ⟨data, hdata, -⟩ := hready hclear
    exact ne_of_failed hinv.good hdata hf hid.symm
  · intro after i r args before j l f he hf hfield hid
    have hb : f.storage ∈ r.buffers := by
      rw [← r.named_buffers]
      exact List.mem_flatMap.mpr ⟨.field f, hfield, List.mem_cons_self⟩
    have hcheck : ∀ u m, Told w.log i r before u m → r.check u ≠ .ok () :=
      fun u m htold hok => htold.unbroken hinv.good hok hb hf hid.symm
    refine ⟨idle_of_rejected hinv.good he hcheck, fun r' result args' stored hreturned => ?_⟩
    exact error_of_rejected hinv.good he hcheck hreturned
  · intro i t id uncertain k hi hc j l hf
    obtain ⟨hpending, r, before, u, m, g, hr, hwp, -, hk⟩ :=
      World.Goes.idle (hinv.active hi hc).1 nofun
    obtain ⟨hexcl, ⟨data, hdata⟩, -⟩ := hwp
    rw [World.exclusive_eq hr] at hexcl
    have hstatus := (hk.status_eq id (List.mem_append_left _ hexcl)).symm.trans hdata
    exact ne_of_failed hinv.good hstatus hf
  · intro after i r e args stored log he hnil
    have hlog := he ▸ hinv.good
    obtain ⟨before, u, m, htold, -, hends⟩ := hlog.good
    refine ⟨_, htold.mem, fun howned => ?_⟩
    rw [hends.1 hnil, Request.buffers, howned]
    rfl
  · exact fun i t choice id hi hid hlt => hinv.tick_untouched hi choice hid hlt

end Reads
end Gudra
