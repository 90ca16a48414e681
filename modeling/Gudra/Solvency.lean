import Gudra.Charges
import Gudra.Drops
import Gudra.Moves

/-! In a run, storage that is not yet dropped is paid for. -/
namespace Gudra

open Scope Interleave

variable {P : Platform} {α : Type}

/-- The effect that a task asks for next. -/
def Task.next? (t : Task P α) : Option (Effect α) :=
  match t.control with
  | .active (.eff e _) => some e
  | _ => none

def Choice.isOk : Choice α → Bool
  | .ok => true
  | _ => false

namespace World

variable (w : World P α)

/-- The device binds and the operation is admitted. -/
def succeeds (choice : Choice α) : Effect α → Bool
  | .bind _ => choice.isOk
  | .operation _ s => (w.budget? s).all fun b => b.OperationFits
  | _ => true

/-- The step fails no destructured buffer. -/
def spares : Input P α → Bool
  | .tick i choice =>
    match w.tasks[i]? with
    | some t =>
      match t.request, t.next? with
      | some r, some e => !r.fragile e || w.succeeds choice e
      | _, _ => true
    | none => true
  | _ => true

/-- Every step of the run spares. -/
def sparesRun [Scalar α] (w : World P α) : List (Input P α) → Bool
  | [] => true
  | x :: xs => w.spares x && (w.step x).sparesRun xs

end World

/-- What task `t` holds is covered, and stays so while its code runs or its scopes are dropped. -/
def Task.Solvent (t : Task P α) : Prop :=
  match t.control with
  | .active c => Covered t.frames.resources ∧ ∃ r, t.request = some r ∧
    (dropLogic r.fragile).wp c (fun _ _ _ => True) t.frames ()
  | .suspended c | .forgotten c => Orderly t.frames.resources ∧ ∃ r, t.request = some r ∧
    (dropLogic r.fragile).wp c (fun _ _ _ => True) t.frames ()
  | .unwinding => Orderly t.frames.resources
  | .finished => Covered t.frames.resources

section Steps

variable {w w' : World P α} {i : ℕ} {t t' : Task P α}
  {c : Script α (Except Error (Outcome P α))}

theorem Task.Solvent.covered (h : t.Solvent) : Covered t.frames.resources := by
  cases hc : t.control with
  | active c =>
    simp only [Solvent, hc] at h
    exact h.1
  | suspended c | forgotten c =>
    simp only [Solvent, hc] at h
    exact h.1.covered
  | unwinding =>
    simp only [Solvent, hc] at h
    exact h.covered
  | finished =>
    simp only [Solvent, hc] at h
    exact h

theorem Owner.Kept.covered {o : Owner P} (h : o.Kept) : Covered o.atoms := by
  rw [← o.resources_entries]
  exact h.orderly.covered

theorem covered_owners {os : List (Owner P)} (h : ∀ o ∈ os, o.Kept) :
    Covered (os.flatMap Owner.atoms) := by
  induction os with
  | nil => exact covered_nil
  | cons o os ih =>
    have ho : o.Kept := h o List.mem_cons_self
    exact ho.covered.append (ih fun x hx => h x (List.mem_cons_of_mem _ hx))

namespace World

def Solvent (w : World P α) : Prop := ∀ t ∈ w.tasks, t.Solvent

/-- An effect that fails no fragile buffer answers as the specification of the drops expects. -/
theorem reply_spared {fragile : Effect α → Bool} {choice : Choice α} {e : Effect α} {rep : e.Rep}
    {fs : Frames Name Atom} {post : e.Rep → Frames Name Atom → Unit → Prop}
    (hspec : dropSpec fragile e fs () post) (hp : w.perform i choice e = some (rep, w'))
    (hbind : ∀ s, e = .bind s → fragile e = true → choice = .ok)
    (hoperation : ∀ x s, e = .operation x s → fragile e = true →
      ∀ b, w.budget? s = some b → b.OperationFits) :
    post rep (Frames.push (e.gain rep) fs) () := by
  cases e with
  | buffer x s bytes =>
    obtain ⟨b, b', -, hb', -⟩ := reserve_eq_some hp
    by_cases hf : b.BufferFits bytes
    · rw [Budget.buffer_ok hf] at hb'
      cases hb'
      exact hspec.2
    · obtain ⟨resource, maximum, he⟩ := Budget.buffer_error s hf
      rw [he] at hb'
      cases hb'
      exact hspec.1 _
  | operation x s =>
    obtain ⟨b, b', hb, hb', -⟩ := reserve_eq_some hp
    by_cases hf : b.OperationFits
    · rw [Budget.operation_ok hf] at hb'
      cases hb'
      exact hspec.2
    · rw [Budget.operation_error hf] at hb'
      cases hb'
      refine hspec.1 ?_ _
      exact Bool.eq_false_iff.mpr fun hfragile => hf (hoperation x s rfl hfragile b hb)
  | bind s =>
    cases choice with
    | ok =>
      cases hp
      exact hspec.2
    | fail operation message garbage =>
      cases hp
      have hfalse : fragile (.bind s) = false :=
        Bool.eq_false_iff.mpr fun hfragile => nomatch hbind s rfl hfragile
      exact (hspec.1 hfalse).2 message
    | unwind garbage => cases hp
  | attempt =>
    cases choice <;> cases hp
    · exact hspec.2 (.ok ())
    · exact hspec.2 (.error _)
  | upload x session data =>
    cases choice <;> cases hp
    · exact hspec.2.2 _ rfl rfl
    · exact hspec.2.1 _
  | completions =>
    cases hp
    exact hspec _
  | setCompletion id uncertain =>
    cases hp
    exact hspec
  | copy session s =>
    cases choice <;> cases hp
    · exact hspec.2 (.ok _)
    · exact hspec.2 (.error _)
  | execute | «lazy» | panic => cases hp

/-- A step that spares answers a fragile effect. -/
theorem succeeds_of_spares {r : Request P α} {e : Effect α}
    {k : e.Rep → Script α (Except Error (Outcome P α))} {choice : Choice α}
    (hi : w.tasks[i]? = some t) (hr : t.request = some r) (hc : t.control = .active (.eff e k))
    (hspared : w.spares (.tick i choice) = true) :
    (∀ s, e = .bind s → r.fragile e = true → choice = .ok) ∧
      ∀ x s, e = .operation x s → r.fragile e = true →
        ∀ b, w.budget? s = some b → b.OperationFits := by
  have hsucceeds : r.fragile e = true → w.succeeds choice e = true := by
    intro hf
    simpa [World.spares, hi, hr, Task.next?, hc, hf] using hspared
  constructor
  · rintro s rfl hf
    cases choice with
    | ok => rfl
    | fail | unwind => cases hsucceeds hf
  · rintro x s rfl hf b hb
    simpa [World.succeeds, hb] using hsucceeds hf

variable [Scalar α]

/-- What a panic of an effect drops is orderly. -/
theorem Inv.orderly_of_unwind (h : w.Inv) (hi : w.tasks[i]? = some t) {e : Effect α}
    {k : e.Rep → Script α (Except Error (Outcome P α))} (hc : t.control = .active (.eff e k))
    {fragile : Effect α → Bool} {choice : Choice α} {fs : Frames Name Atom}
    {post : e.Rep → Frames Name Atom → Unit → Prop} (hspec : dropSpec fragile e fs () post)
    (hstops : ¬ Stops (.eff e k)) (hp : w.perform i choice e = none)
    (hbind : ∀ s, e = .bind s → fragile e = true → choice = .ok) : Orderly fs.resources := by
  obtain ⟨rep, w', hreply⟩ := h.exists_reply hi hc hstops
  cases e with
  | buffer | operation => exact nomatch hreply.symm.trans hp
  | bind s =>
    cases choice with
    | ok | fail => cases hp
    | unwind garbage =>
      have hfalse : fragile (.bind s) = false :=
        Bool.eq_false_iff.mpr fun hfragile => nomatch hbind s rfl hfragile
      exact (hspec.1 hfalse).1
  | attempt | upload | copy => exact hspec.1
  | completions | setCompletion => cases hp
  | execute s l => exact absurd (.executes s l k) hstops
  | «lazy» => exact absurd (.hands k) hstops
  | panic => cases hreply

/-- A move of a task that spares keeps it solvent. -/
theorem solvent_moves (h : w.Inv) (hi : w.tasks[i]? = some t) (ht : t.Solvent) {x : Input P α}
    {es : List (Event P α)} (hspared : w.spares x = true) (hm : t.Moves w i x t' es) :
    t'.Solvent := by
  cases hm with
  | internal hc hint =>
    simp only [Task.Solvent, hc] at ht
    obtain ⟨-, r, hr, hwp⟩ := ht
    obtain ⟨hwp', hcovered⟩ := Logic.wp_internal hwp hint
    exact ⟨hcovered, r, hr, hwp'⟩
  | @reply choice e k rep w' es hc hp hlog =>
    simp only [Task.Solvent, hc] at ht
    obtain ⟨-, r, hr, hspec⟩ := ht
    obtain ⟨hbind, hoperation⟩ := succeeds_of_spares hi hr hc hspared
    obtain ⟨hcovered, hwp⟩ := reply_spared hspec hp hbind hoperation
    exact ⟨hcovered, r, hr, hwp⟩
  | panic hc hstops hp =>
    simp only [Task.Solvent, hc] at ht
    obtain ⟨-, r, hr, hspec⟩ := ht
    exact h.orderly_of_unwind hi hc hspec hstops hp (succeeds_of_spares hi hr hc hspared).1
  | hand hc =>
    simp only [Task.Solvent, hc] at ht
    obtain ⟨-, r, hr, horderly, -, hwp⟩ := ht
    exact ⟨horderly, r, hr, hwp⟩
  | submit hc hp =>
    simp only [Task.Solvent, hc] at ht ⊢
    exact ht
  | suspend hc hp hasync =>
    simp only [Task.Solvent, hc] at ht
    obtain ⟨-, r, hr, horderly, hreplies⟩ := ht
    exact ⟨horderly, r, hr, horderly, hreplies⟩
  | resume hc hp =>
    simp only [Task.Solvent, hc] at ht
    obtain ⟨-, r, hr, horderly, hreplies⟩ := ht
    exact ⟨horderly.covered, r, hr, (hreplies _).2⟩
  | fail hc hes =>
    simp only [Task.Solvent, hc] at ht
    obtain ⟨-, r, hr, horderly, hreplies⟩ := ht
    exact ⟨horderly.covered, r, hr, (hreplies _).2⟩
  | crash hc hes =>
    simp only [Task.Solvent, hc] at ht
    obtain ⟨-, r, hr, horderly, -⟩ := ht
    exact horderly
  | settle hc hp hes =>
    simp only [Task.Solvent, hc] at ht ⊢
    exact ht
  | drop hc hp hu =>
    simp only [Task.Solvent, hc] at ht ⊢
    exact ht.unwind hu
  | finish hc hp hu =>
    simp only [Task.Solvent, hc] at ht
    exact ht.covered
  | «return» hc => exact covered_nil
  | poll hc =>
    simp only [Task.Solvent, hc] at ht
    exact ⟨ht.1.covered, ht.2⟩
  | cancel hc =>
    simp only [Task.Solvent, hc] at ht
    exact ht.1
  | forget hc =>
    simp only [Task.Solvent, hc] at ht
    exact ht

theorem solvent_starts (h : w.Inv) {x : Input P α} (hs : t.Starts w x) : t.Solvent := by
  cases hs with
  | @call c r hr hpermitted =>
    have hpre := h.pre (resolved hr) hpermitted
    have hkept : ∀ o ∈ r.owned, o.Kept := fun o ho => hpre.kept o (Request.owned_named ho)
    refine ⟨?_, r, rfl, drop_request hkept⟩
    simp only [r.entries_atoms]
    exact covered_owners hkept
  | drop ho => exact (h.owners _ (mem_of_owner? ho)).kept.orderly

theorem solvent_step (h : w.Inv) (hs : w.Solvent) {x : Input P α} (hspared : w.spares x = true) :
    (w.step x).Solvent := by
  intro t' ht'
  obtain ⟨i, hi'⟩ := List.mem_iff_getElem?.mp ht'
  obtain ⟨es, -, hi | ⟨t, hi, hm⟩ | hstarts⟩ := step_task hi'
  · exact hs t' (List.mem_of_getElem? hi)
  · exact solvent_moves h hi (hs t (List.mem_of_getElem? hi)) hspared hm
  · exact solvent_starts h hstarts

theorem solvent_run (h : w.Inv) (hs : w.Solvent) {xs : List (Input P α)}
    (hspared : w.sparesRun xs = true) : (w.run xs).Solvent := by
  induction xs generalizing w with
  | nil => exact hs
  | cons x xs ih =>
    obtain ⟨hx, hxs⟩ := Bool.and_eq_true_iff.mp hspared
    exact ih (inv_step h x) (solvent_step h hs hx) hxs

end World
end Steps

section Bytes

variable {s : ℕ} {xs : List Atom}

/-- The logical bytes of the tensors of session `s` among resources. -/
def tensorBytes (s : ℕ) (xs : List Atom) : ℕ :=
  (((xs.filterMap Atom.storage?).filter fun x => x.session = s).map fun x => x.len * sizeOfF32).sum

/-- Covered tensors are charged. -/
theorem Covered.tensorBytes_le (h : Covered xs) : tensorBytes s xs ≤ bufferBytes (reservations s xs) := by
  have hsub : ((xs.filterMap Atom.storage?).map Storage.price).Subperm
      (xs.filterMap Atom.reservation?) := List.subperm_ext_iff.mpr fun r _ => h r
  obtain ⟨rs, hperm, hsublist⟩ := hsub.filter fun r => decide (r.budget = s)
  have hprices : ((xs.filterMap Atom.storage?).map Storage.price).filter
      (fun r => decide (r.budget = s)) =
      ((xs.filterMap Atom.storage?).filter fun x => x.session = s).map Storage.price :=
    List.filter_map ..
  have hbytes : bufferBytes rs = tensorBytes s xs := by
    rw [bufferBytes_perm (hperm.trans (.of_eq hprices)), bufferBytes, tensorBytes,
      List.filter_eq_self.mpr, List.map_map]
    · rfl
    · intro r hr
      obtain ⟨x, -, rfl⟩ := List.mem_map.mp hr
      rfl
  rw [← hbytes]
  exact ((hsublist.filter _).map _).sum_le_sum fun _ _ => Nat.zero_le _

end Bytes

section Solvency

variable [Scalar α]

/-- In every run in which the device binds for every `into_host` and `observe` and every `observe`
is admitted, a charge is released only after the storage that it pays for: at every instant each
task and each owner holds a charge for every tensor that it has not yet dropped, and the tensors of
a session never exceed its charges nor its limit. -/
theorem charges_outlive_storage (memory : Addr → α) (inputs : List (Input P α)) :
    let w := (World.init P memory).run inputs
    (World.init P memory).sparesRun inputs = true →
    (∀ t ∈ w.tasks, Covered t.frames.resources) ∧ (∀ x ∈ w.owners, Covered x.2.atoms) ∧
      (∀ o ∈ w.leaked, Covered o.atoms) ∧ ∀ s b, w.budget? s = some b →
        tensorBytes s w.atoms ≤ b.usage.bytes ∧ b.usage.bytes ≤ b.limits.totalBytes := by
  intro w hspared
  have h : w.Inv := World.inv_run (World.inv_init memory) inputs
  have hs : w.Solvent :=
    World.solvent_run (World.inv_init memory) (fun _ ht => absurd ht List.not_mem_nil) hspared
  have howners : Covered (w.owners.flatMap fun x => x.2.atoms) := by
    rw [← List.flatMap_map (f := Prod.snd) (g := Owner.atoms)]
    refine covered_owners fun o ho => ?_
    obtain ⟨x, hx, rfl⟩ := List.mem_map.mp ho
    exact (h.owners x hx).kept
  have htasks : ∀ ts : List (Task P α), (∀ t ∈ ts, t.Solvent) →
      Covered (ts.flatMap fun t => t.frames.resources) := by
    intro ts
    induction ts with
    | nil => exact fun _ => covered_nil
    | cons t ts ih =>
      intro hts
      have ht : t.Solvent := hts t List.mem_cons_self
      exact ht.covered.append (ih fun x hx => hts x (List.mem_cons_of_mem _ hx))
  refine ⟨fun t ht => (hs t ht).covered, fun x hx => Owner.Kept.covered (h.owners x hx).kept,
    fun o ho => Owner.Kept.covered (h.leaked o ho), fun s b hb => ?_⟩
  have haccounts := (h.accounts s).1 b hb
  have hcovered : Covered w.atoms := (howners.append (covered_owners h.leaked)).append (htasks _ hs)
  refine ⟨?_, haccounts.bytes_le⟩
  rw [haccounts.bytes_eq]
  exact hcovered.tensorBytes_le

/-- A field is read back; its tensor is not yet dropped. -/
def readCell : List (Input ⟨64, Platform.le_64⟩ ℚ) :=
  zerosCell ++ .call (.intoHost 0) :: List.replicate 8 (.tick 1 .ok)

theorem charges_outlive_storage_cell :
    ∃ b, ((World.init _ fun _ => 0).run readCell).budget? 0 = some b ∧
      tensorBytes 0 ((World.init _ fun _ => 0).run readCell).atoms = 4 ∧ 4 ≤ b.usage.bytes := by
  have hspared : (World.init _ fun _ => 0).sparesRun readCell = true := by decide +kernel
  obtain ⟨-, -, -, hbytes⟩ := charges_outlive_storage (fun _ => 0) readCell hspared
  have hfour : tensorBytes 0 ((World.init _ fun _ => 0).run readCell).atoms = 4 := by
    decide +kernel
  exact ⟨_, rfl, hfour, hfour ▸ (hbytes 0 _ rfl).1⟩

/-- The device does not bind: `into_host` drops the reservation and then the tensor. -/
def unboundCell : List (Input ⟨64, Platform.le_64⟩ ℚ) :=
  zerosCell ++ .call (.intoHost 0) :: List.replicate 4 (.tick 1 .ok) ++
    [.tick 1 (.fail "" "lost" fun _ => 0), .tick 1 .ok]

/-- Then the tensor is not paid for. -/
theorem storage_outlives_charge : ¬ ∀ inputs : List (Input ⟨64, by decide⟩ ℚ),
    ∀ b, ((World.init _ fun _ => 0).run inputs).budget? 0 = some b →
      tensorBytes 0 ((World.init _ fun _ => 0).run inputs).atoms ≤ b.usage.bytes := by
  intro h
  exact absurd (h unboundCell _ rfl) (by decide +kernel)

end Solvency
end Gudra
