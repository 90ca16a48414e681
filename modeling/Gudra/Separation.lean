import Gudra.Invariant

/-! Different tasks and owners have different allocations, so that a step of one is local. -/
namespace Gudra

open Scope Interleave

variable {P : Platform} {α : Type}

theorem ids_flatMap {β : Type} (xs : List β) (f : β → List Atom) :
    ids (xs.flatMap f) = xs.flatMap fun x => ids (f x) := by
  induction xs with
  | nil => rfl
  | cons x xs ih => rw [List.flatMap_cons, List.flatMap_cons, ids_append, ih]

/-- What two members of a duplicate-free concatenation share makes them equal. -/
theorem eq_of_mem_flatMap {β γ : Type} {xs : List β} {f : β → List γ} (h : (xs.flatMap f).Nodup)
    {x y : β} {c : γ} (hx : x ∈ xs) (hy : y ∈ xs) (hcx : c ∈ f x) (hcy : c ∈ f y) : x = y := by
  by_contra hne
  have : Std.Symm (Function.onFun List.Disjoint f) := ⟨fun _ _ h => h.symm⟩
  exact ((List.nodup_flatMap.mp h).2.forall hx hy hne) hcx hcy

/-- The same for two positions. -/
theorem eq_of_getElem?_flatMap {β γ : Type} {xs : List β} {f : β → List γ}
    (h : (xs.flatMap f).Nodup) {i j : ℕ} {x y : β} {c : γ} (hx : xs[i]? = some x)
    (hy : xs[j]? = some y) (hcx : c ∈ f x) (hcy : c ∈ f y) : i = j := by
  by_contra hne
  have hperm := ((perm_cons_eraseIdx hx).flatMap_right f).nodup_iff.mp h
  rw [List.flatMap_cons] at hperm
  have hmem : y ∈ xs.eraseIdx i :=
    List.mem_eraseIdx_iff_getElem?.mpr ⟨j, Ne.symm hne, hy⟩
  exact List.disjoint_of_nodup_append hperm hcx (List.mem_flatMap.mpr ⟨y, hmem, hcy⟩)

namespace World

variable {w w' : World P α} {i j : ℕ} {t t' : Task P α} {x y : ℕ × Owner P} {o : Owner P} {id : ℕ}

/-- The resources of everyone but task `i`. -/
def others (w : World P α) (i : ℕ) : List Atom :=
  w.owners.flatMap (fun x => x.2.atoms) ++ w.leaked.flatMap Owner.atoms ++
    (w.tasks.eraseIdx i).flatMap fun t => t.frames.resources

theorem atoms_perm (hi : w.tasks[i]? = some t) :
    w.atoms.Perm (t.frames.resources ++ w.others i) := by
  have htasks := (perm_cons_eraseIdx hi).flatMap_right fun t : Task P α => t.frames.resources
  rw [List.flatMap_cons] at htasks
  refine (htasks.append_left _).trans ?_
  rw [others, ← List.append_assoc, ← List.append_assoc]
  exact List.perm_append_comm.append_right _

variable [Scalar α] (h : w.Inv)
include h

theorem Inv.nodup_owners : (w.owners.flatMap fun x => x.2.ids).Nodup := by
  have hnodup := h.nodup
  rw [atoms, ids_append, ids_append, ids_flatMap] at hnodup
  simp only [Owner.ids_atoms] at hnodup
  exact hnodup.of_append_left.of_append_left

theorem Inv.nodup_tasks : (w.tasks.flatMap fun t => ids t.frames.resources).Nodup := by
  have hnodup := h.nodup
  rw [atoms, ids_append, ids_flatMap w.tasks] at hnodup
  exact hnodup.of_append_right

theorem Inv.owner_task_apart (hx : x ∈ w.owners) (hid : id ∈ x.2.ids) (ht : t ∈ w.tasks) :
    id ∉ ids t.frames.resources := by
  have hnodup := h.nodup
  rw [atoms, ids_append, ids_append, ids_flatMap, ids_flatMap w.tasks] at hnodup
  simp only [Owner.ids_atoms] at hnodup
  intro hid'
  exact List.disjoint_of_nodup_append hnodup
    (List.mem_append_left _ (List.mem_flatMap.mpr ⟨x, hx, hid⟩))
    (List.mem_flatMap.mpr ⟨t, ht, hid'⟩)

theorem Inv.owner_fresh (hx : x ∈ w.owners) (hid : id ∈ x.2.ids) : id < w.nextStorage := by
  refine h.fresh id ?_
  rw [atoms, ids_append, ids_append, ids_flatMap]
  simp only [Owner.ids_atoms]
  exact List.mem_append_left _ (List.mem_append_left _ (List.mem_flatMap.mpr ⟨x, hx, hid⟩))

theorem Inv.task_fresh (ht : t ∈ w.tasks) (hid : id ∈ ids t.frames.resources) :
    id < w.nextStorage := by
  refine h.fresh id ?_
  rw [atoms, ids_append, ids_flatMap w.tasks]
  exact List.mem_append_right _ (List.mem_flatMap.mpr ⟨t, ht, hid⟩)

/-- An allocation has one owner. -/
theorem Inv.owner_unique (hx : x ∈ w.owners) (hy : y ∈ w.owners) (hidx : id ∈ x.2.ids)
    (hidy : id ∈ y.2.ids) : x = y := eq_of_mem_flatMap h.nodup_owners hx hy hidx hidy

theorem Inv.borrow (ht : t ∈ w.tasks) {b : ℕ × Buffer P} (hb : b ∈ t.shared ++ t.lent) :
    ∃ x ∈ w.owners, x.1 = b.1 ∧ b.2.id ∈ x.2.ids ∧ x.2.buffers = [b.2] := by
  obtain ⟨o, ho, hbuffers⟩ := h.borrows t ht b hb
  refine ⟨(b.1, o), ho, rfl, ?_, hbuffers⟩
  rw [Owner.ids, hbuffers]
  exact List.mem_cons_self

omit h [Scalar α] in
theorem mem_reach (hid : id ∈ t.reach) :
    id ∈ ids t.frames.resources ∨ ∃ b ∈ t.shared ++ t.lent, b.2.id = id := by
  rcases List.mem_append.mp hid with hid | hid
  · rcases List.mem_append.mp hid with hid | hid
    · exact .inl hid
    · obtain ⟨b, hb, rfl⟩ := List.mem_map.mp hid
      exact .inr ⟨b, List.mem_append_right _ hb, rfl⟩
  · obtain ⟨b, hb, rfl⟩ := List.mem_map.mp hid
    exact .inr ⟨b, List.mem_append_left _ hb, rfl⟩

theorem Inv.reach_fresh (ht : t ∈ w.tasks) (hid : id ∈ t.reach) : id < w.nextStorage := by
  rcases mem_reach hid with hid | ⟨b, hb, rfl⟩
  · exact h.task_fresh ht hid
  · obtain ⟨x, hx, -, hid, -⟩ := h.borrow ht hb
    exact h.owner_fresh hx hid

/-- What is lent to one call is not within the reach of another. -/
theorem Inv.lent_apart (hi : w.tasks[i]? = some t) (hj : w.tasks[j]? = some t') (hne : i ≠ j)
    {b c : ℕ × Buffer P} (hb : b ∈ t.lent) (hc : c ∈ t'.shared ++ t'.lent) : b.2.id ≠ c.2.id := by
  intro he
  have hit := List.mem_of_getElem? hi
  have hjt := List.mem_of_getElem? hj
  obtain ⟨x, hx, hxb, hidx, -⟩ := h.borrow hit (List.mem_append_right _ hb)
  obtain ⟨y, hy, hyc, hidy, -⟩ := h.borrow hjt hc
  obtain rfl := h.owner_unique hx hy hidx (he ▸ hidy)
  have hname : b.1 = c.1 := hxb.symm.trans hyc
  have hlent : b.1 ∈ t.lent.map Prod.fst := List.mem_map_of_mem hb
  rcases List.mem_append.mp hc with hc | hc
  · refine h.apart b.1 (List.mem_flatMap.mpr ⟨t, hit, hlent⟩) ?_
    exact List.mem_flatMap.mpr ⟨t', hjt, hname ▸ List.mem_map_of_mem hc⟩
  · exact hne (eq_of_getElem?_flatMap h.lent hi hj hlent (hname ▸ List.mem_map_of_mem hc))

/-- What one task may touch, no other task can reach. -/
theorem Inv.task_apart (hi : w.tasks[i]? = some t) (hj : w.tasks[j]? = some t') (hne : i ≠ j) :
    Safe w t.exclusive t'.reach := by
  have hit := List.mem_of_getElem? hi
  have hjt := List.mem_of_getElem? hj
  intro id hid
  refine ⟨fun hexcl => ?_, h.reach_fresh hjt hid⟩
  rcases List.mem_append.mp hexcl with hown | hlent
  · rcases mem_reach hid with hid | ⟨c, hc, rfl⟩
    · exact hne (eq_of_getElem?_flatMap h.nodup_tasks hi hj hown hid)
    · obtain ⟨x, hx, -, hidx, -⟩ := h.borrow hjt hc
      exact h.owner_task_apart hx hidx hit hown
  · obtain ⟨b, hb, rfl⟩ := List.mem_map.mp hlent
    rcases mem_reach hid with hid | ⟨c, hc, he⟩
    · obtain ⟨x, hx, -, hidx, -⟩ := h.borrow hit (List.mem_append_right _ hb)
      exact h.owner_task_apart hx hidx hjt hid
    · exact h.lent_apart hi hj hne hb hc he.symm

/-- An owner that a task may touch is lent to it. -/
theorem Inv.owner_apart (hi : w.tasks[i]? = some t) (hx : x ∈ w.owners) :
    Safe w t.exclusive x.2.ids ∨ ∃ b ∈ t.lent, b.1 = x.1 ∧ x.2.buffers = [b.2] := by
  have hit := List.mem_of_getElem? hi
  by_cases hb : ∃ b ∈ t.lent, b.1 = x.1
  · obtain ⟨b, hb, hname⟩ := hb
    obtain ⟨y, hy, hyb, -, hbuffers⟩ := h.borrow hit (List.mem_append_right _ hb)
    obtain rfl := List.inj_on_of_nodup_map h.names hx hy (hname.symm.trans hyb.symm)
    exact .inr ⟨b, hb, hname, hbuffers⟩
  · refine .inl fun id hid => ⟨fun hexcl => ?_, h.owner_fresh hx hid⟩
    rcases List.mem_append.mp hexcl with hown | hlent
    · exact h.owner_task_apart hx hid hit hown
    · obtain ⟨b, hbl, rfl⟩ := List.mem_map.mp hlent
      obtain ⟨y, hy, hyb, hidy, -⟩ := h.borrow hit (List.mem_append_right _ hbl)
      obtain rfl := h.owner_unique hx hy hid hidy
      exact hb ⟨b, hbl, hyb.symm⟩

section Borrows

variable (hi : w.tasks[i]? = some t) (htasks : w'.tasks = w.tasks.set i t')
include hi htasks

omit [Scalar α] h in
/-- What is still borrowed was borrowed before. -/
theorem borrows_sub {f : Task P α → List ℕ} (hf : f t' = f t ∨ f t' = []) :
    ∃ xs, (w.tasks.flatMap f).Perm (xs ++ w'.tasks.flatMap f) := by
  have hold := (perm_cons_eraseIdx hi).flatMap_right f
  have hnew := (perm_set (y := t') hi).flatMap_right f
  rw [List.flatMap_cons] at hold hnew
  rw [htasks]
  rcases hf with hf | hf
  · rw [hf] at hnew
    exact ⟨[], hold.trans hnew.symm⟩
  · rw [hf, List.nil_append] at hnew
    exact ⟨f t, hold.trans (hnew.symm.append_left _)⟩

variable (hborrows : t'.shared = t.shared ∧ t'.lent = t.lent ∨ t'.shared = [] ∧ t'.lent = [])
include hborrows

theorem Inv.lent_set : w'.lent.Nodup ∧ ∀ n ∈ w'.lent, n ∉ w'.shared := by
  have hlent : ∃ xs, w.lent.Perm (xs ++ w'.lent) := by
    refine borrows_sub hi htasks ?_
    rcases hborrows with ⟨-, hlent⟩ | ⟨-, hlent⟩
    · exact .inl (congrArg _ hlent)
    · exact .inr (congrArg (List.map Prod.fst) hlent)
  have hshared : ∃ xs, w.shared.Perm (xs ++ w'.shared) := by
    refine borrows_sub hi htasks ?_
    rcases hborrows with ⟨hshared, -⟩ | ⟨hshared, -⟩
    · exact .inl (congrArg _ hshared)
    · exact .inr (congrArg (List.map Prod.fst) hshared)
  obtain ⟨xs, hxs⟩ := hlent
  obtain ⟨ys, hys⟩ := hshared
  refine ⟨(hxs.nodup_iff.mp h.lent).of_append_right, fun n hlent hshared => ?_⟩
  exact h.apart n (hxs.mem_iff.mpr (List.mem_append_right _ hlent))
    (hys.mem_iff.mpr (List.mem_append_right _ hshared))

theorem Inv.borrows_set (howners : ∀ x ∈ w.owners, x ∈ w'.owners) :
    ∀ t ∈ w'.tasks, ∀ x ∈ t.shared ++ t.lent, ∃ o, (x.1, o) ∈ w'.owners ∧ o.buffers = [x.2] := by
  have hold : ∀ t ∈ w.tasks, ∀ x ∈ t.shared ++ t.lent,
      ∃ o, (x.1, o) ∈ w'.owners ∧ o.buffers = [x.2] := by
    intro t ht x hx
    obtain ⟨o, ho, hbuffers⟩ := h.borrows t ht x hx
    exact ⟨o, howners _ ho, hbuffers⟩
  intro t'' ht x hx
  rw [htasks] at ht
  rcases List.mem_or_eq_of_mem_set ht with ht | rfl
  · exact hold t'' ht x hx
  · rcases hborrows with ⟨hshared, hlent⟩ | ⟨hshared, hlent⟩
    · rw [hshared, hlent] at hx
      exact hold t (List.mem_of_getElem? hi) x hx
    · rw [hshared, hlent] at hx
      cases hx

end Borrows

omit h

/-- A step of task `i` from `t` to `t'` that moves no owner. -/
structure Local (w w' : World P α) (i : ℕ) (t t' : Task P α) : Prop where
  spares : Spares w w' i t.exclusive
  tasks_eq : w'.tasks = w.tasks.set i t'
  owners_eq : w'.owners = w.owners
  leaked_eq : w'.leaked = w.leaked
  nextOwner_eq : w'.nextOwner = w.nextOwner
  borrows : t'.shared = t.shared ∧ t'.lent = t.lent ∨ t'.shared = [] ∧ t'.lent = []
  good : GoodLog w'.log
  absent : ∀ id, w'.nextStorage ≤ id → status w'.log id = .absent
  holds : ∀ id data, id ∈ t.exclusive ∨ w.nextStorage ≤ id → status w'.log id = .settled data →
    Holds w'.memory id data
  resources : (ids t'.frames.resources).Subperm
    (List.range' w.nextStorage (w'.nextStorage - w.nextStorage) ++ ids t.frames.resources)
  accounts : ∀ xs, w.Accounted (t.frames.resources ++ xs) → w'.Accounted (t'.frames.resources ++ xs)
  lent_ready : ∀ x ∈ t.lent, w'.uncertain x.2.id = false →
    (Ghost.start w'.log w'.uncertain).Ready x.2.tensor.storage
  task : t'.Good w' i
  flights : ∀ (n : ℕ) (f : Flight α), w'.flights[n]? = some f → f.state = .running →
    f.task ≠ i ∧ w.flights[n]? = some f ∨ f.task = i ∧ t'.pending = some n

section Local

variable (hl : Local w w' i t t') (hi : w.tasks[i]? = some t)
include hl hi

theorem Local.tasks_i : w'.tasks[i]? = some t' := by
  rw [hl.tasks_eq, List.getElem?_set_self (List.getElem?_eq_some_iff.mp hi).1]

omit hi in
theorem Local.tasks_of_ne (hne : j ≠ i) : w'.tasks[j]? = w.tasks[j]? := by
  rw [hl.tasks_eq, List.getElem?_set_ne hne.symm]

omit hi in
theorem Local.others_eq : w'.others i = w.others i := by
  rw [others, others, hl.owners_eq, hl.leaked_eq, hl.tasks_eq, List.eraseIdx_set_eq]

/-- The allocations of the task are new or were its own. -/
theorem Local.ids_subperm : (ids w'.atoms).Subperm
    (List.range' w.nextStorage (w'.nextStorage - w.nextStorage) ++ ids w.atoms) := by
  have hnew := ids_perm (atoms_perm (hl.tasks_i hi))
  have hold := ids_perm (atoms_perm hi)
  rw [ids_append, hl.others_eq] at hnew
  rw [ids_append] at hold
  refine hnew.subperm.trans ?_
  refine ((List.subperm_append_right _).mpr hl.resources).trans ?_
  rw [List.append_assoc]
  exact (List.Perm.append_left _ hold.symm).subperm

theorem Local.nodup (h : w.Inv) : (ids w'.atoms).Nodup := by
  obtain ⟨l, hperm, hsub⟩ := hl.ids_subperm hi
  refine hperm.nodup_iff.mp (hsub.nodup ?_)
  refine List.nodup_append.mpr ⟨List.nodup_range', h.nodup, ?_⟩
  intro a ha b hb
  have hge := List.mem_range'_1.mp ha
  have hlt := h.fresh b hb
  omega

theorem Local.fresh (h : w.Inv) : ∀ id ∈ ids w'.atoms, id < w'.nextStorage := by
  intro id hid
  rcases List.mem_append.mp ((hl.ids_subperm hi).subset hid) with hid | hid
  · have hnew := List.mem_range'_1.mp hid
    omega
  · exact lt_of_lt_of_le (h.fresh id hid) hl.spares.next

/-- The owners stay good: the task may only touch what it borrows. -/
theorem Local.owners (h : w.Inv) : ∀ x ∈ w'.owners, x.2.Good w' := by
  intro x hx
  rw [hl.owners_eq] at hx
  rcases h.owner_apart hi hx with hsafe | ⟨b, hb, -, hbuffers⟩
  · exact hl.spares.owner hsafe (h.owners x hx)
  · have hgood := h.owners x hx
    have hready := hl.lent_ready b hb
    obtain ⟨n, o⟩ := x
    obtain ⟨m, c⟩ := b
    refine ⟨hgood.kept, ?_, fun c hc => hl.spares.sessions _ _ (hgood.known c hc), ?_⟩
    · cases o with
      | halo d =>
        cases hbuffers
        exact hready
      | field d =>
        cases hbuffers
        exact hready
      | grid d => exact absurd hbuffers (by simp [Owner.buffers, DoubleGrid.buffers])
    · rintro d rfl
      exact absurd hbuffers (by simp [Owner.buffers, DoubleGrid.buffers])

/-- A local step keeps the invariant. -/
theorem Local.inv (h : w.Inv) : w'.Inv where
  good := hl.good
  logged := by
    obtain ⟨es, hes, htask⟩ := hl.spares.log
    intro e he
    rw [hl.tasks_eq, List.length_set]
    rw [hes] at he
    rcases List.mem_append.mp he with he | he
    · rw [htask e he]
      exact (List.getElem?_eq_some_iff.mp hi).1
    · exact h.logged e he
  accounts := by
    have haccounts := hl.accounts _ (h.accounts.perm (atoms_perm hi))
    rw [← hl.others_eq] at haccounts
    exact haccounts.perm (atoms_perm (hl.tasks_i hi)).symm
  nodup := hl.nodup hi h
  fresh := hl.fresh hi h
  absent := hl.absent
  holds id data hid := by
    by_cases htouched : id ∈ t.exclusive ∨ w.nextStorage ≤ id
    · exact hl.holds id data htouched hid
    · rw [not_or, not_le] at htouched
      rw [hl.spares.status_eq id htouched.1 htouched.2] at hid
      exact (h.holds id data hid).congr (hl.spares.memory_eq id htouched.1 htouched.2)
  names := hl.owners_eq ▸ h.names
  named := by
    rw [hl.owners_eq, hl.nextOwner_eq]
    exact h.named
  owners := hl.owners hi h
  leaked := hl.leaked_eq ▸ h.leaked
  borrows := h.borrows_set hi hl.tasks_eq hl.borrows fun _ hx => hl.owners_eq ▸ hx
  lent := (h.lent_set hi hl.tasks_eq hl.borrows).1
  apart := (h.lent_set hi hl.tasks_eq hl.borrows).2
  tasks j t'' hj := by
    by_cases hne : i = j
    · subst hne
      rw [hl.tasks_i hi] at hj
      exact Option.some.inj hj ▸ hl.task
    · rw [hl.tasks_of_ne (Ne.symm hne)] at hj
      exact hl.spares.task (Ne.symm hne) (h.task_apart hi hj hne) (h.tasks j t'' hj)
  flights n f hf hrun := by
    rcases hl.flights n f hf hrun with ⟨hne, hf⟩ | ⟨htask, hp⟩
    · rw [hl.tasks_of_ne hne]
      exact h.flights n f hf hrun
    · rw [htask]
      exact ⟨t', hl.tasks_i hi, hp⟩

end Local

end World
end Gudra
