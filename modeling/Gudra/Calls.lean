import Gudra.Returns

/-! Calls start, futures are resumed, and owners are dropped. -/
namespace Gudra

open Scope Interleave

variable {P : Platform} {α : Type}

/-- Entries with distinct names, and what is left without some of them. -/
theorem perm_filter_names {β : Type} {xs ps : List (ℕ × β)} (hxs : (xs.map Prod.fst).Nodup)
    (hps : (ps.map Prod.fst).Nodup) (hsub : ∀ p ∈ ps, p ∈ xs) :
    xs.Perm (ps ++ xs.filter fun x => x.1 ∉ ps.map Prod.fst) := by
  have hsplit := List.filter_append_perm (fun x : ℕ × β => decide (x.1 ∈ ps.map Prod.fst)) xs
  have hrest : (xs.filter fun x => !decide (x.1 ∈ ps.map Prod.fst)) =
      xs.filter fun x => x.1 ∉ ps.map Prod.fst := List.filter_congr fun x _ => by simp
  rw [hrest] at hsplit
  refine hsplit.symm.trans (List.Perm.append_right _ ?_)
  refine (List.perm_ext_iff_of_nodup (hxs.of_map _ |>.filter _) (hps.of_map _)).mpr fun x => ?_
  rw [List.mem_filter, decide_eq_true_eq]
  constructor
  · rintro ⟨hx, hname⟩
    obtain ⟨p, hp, hpx⟩ := List.mem_map.mp hname
    exact List.inj_on_of_nodup_map hxs (hsub p hp) hx hpx ▸ hp
  · exact fun hx => ⟨hsub x hx, List.mem_map_of_mem hx⟩

namespace World

variable [Scalar α] {w w' : World P α} {i n : ℕ} {t t' : Task P α} {g g' : Ghost α}
  {r : Request P α} {before log : List (Event P α)} {u : ℕ → Bool} {m : Addr → α}
  {c : Script α (Except Error (Outcome P α))}

/-! ### Futures -/

/-- The same code goes on after a quiet move that keeps the task's resources. -/
theorem Quiet.same_goes (hq : Quiet w w' i t t') (hg : t.Goes w i c) (hframes : t'.frames = t.frames)
    (hrequest : t'.request = t.request) (hshared : t'.shared = t.shared) (hlent : t'.lent = t.lent)
    (hpending : t'.pending = t.pending) (hcreated : .created i ∈ w'.log → .created i ∈ w.log)
    (hcancelled : .cancelled i ∈ w'.log → .cancelled i ∈ w.log)
    (hdevice : .device i false ∈ w'.log → .device i false ∈ w.log) : t'.Goes w' i c := by
  obtain ⟨r, before, u, m, g, hr, hwp, hinv, hp⟩ := hg
  refine ⟨r, before, u, m, g, ?_, hframes ▸ hwp, hframes ▸ hinv, ?_⟩
  · exact hq.runs hr hrequest hshared hlent fun hmem => hr.alive (hcancelled hmem)
  · rw [hpending]
    cases hpend : t.pending with
    | none =>
      rw [hpend] at hp
      exact hq.knows hp hshared hlent hcreated hdevice
    | some k =>
      rw [hpend] at hp
      obtain ⟨s, l, k, hc, hw⟩ := hp
      exact ⟨s, l, k, hc, hq.waits hw hframes hshared hlent hcreated hdevice⟩

omit [Scalar α] in
theorem quiet_event {e : Event P α} (htask : e.task = i) (he : e.Quiet)
    (control : Control P α) : Quiet w ((w.record e).setTask i { t with control }) i t
      { t with control } := by
  refine quiet_events [e] (fun e' he' => ?_) rfl rfl rfl (.inl rfl)
  obtain rfl := List.mem_singleton.mp he'
  exact ⟨htask, he⟩

/-- A future is polled. -/
theorem inv_poll (h : w.Inv) (hi : w.tasks[i]? = some t) (hc : t.control = .suspended c) :
    ((w.record (.polled i)).setTask i { t with control := .active c }).Inv := by
  have hgood := h.tasks i t hi
  simp only [Task.Good, hc] at hgood
  obtain ⟨hgoes, hcreated, hheld⟩ := hgood
  have hq := quiet_event (w := w) (t := t) (e := .polled i) rfl trivial (.active c)
  refine hq.inv h hi ⟨hcreated, h.good⟩ ⟨?_, fun _ => List.mem_cons_self⟩
  exact hq.same_goes hgoes rfl rfl rfl rfl rfl
    (List.mem_of_ne_of_mem (by simp))
    (List.mem_of_ne_of_mem (by simp))
    (List.mem_of_ne_of_mem (by simp))

/-- A future is forgotten. -/
theorem inv_forget (h : w.Inv) (hi : w.tasks[i]? = some t) (hc : t.control = .suspended c) :
    ((w.record (.forgotten i)).setTask i { t with control := .forgotten c }).Inv := by
  have hgood := h.tasks i t hi
  simp only [Task.Good, hc] at hgood
  obtain ⟨hgoes, hcreated, hheld⟩ := hgood
  have hq := quiet_event (w := w) (t := t) (e := .forgotten i) rfl trivial (.forgotten c)
  refine hq.inv h hi ⟨hcreated, h.good⟩ ⟨?_, List.mem_cons_of_mem _ hcreated, hheld⟩
  exact hq.same_goes hgoes rfl rfl rfl rfl rfl
    (List.mem_of_ne_of_mem (by simp))
    (List.mem_of_ne_of_mem (by simp))
    (List.mem_of_ne_of_mem (by simp))

/-- A future is dropped. -/
theorem inv_cancel (h : w.Inv) (hi : w.tasks[i]? = some t) (hc : t.control = .suspended c) :
    ((w.record (.cancelled i)).setTask i { t with control := .unwinding }).Inv := by
  have hgood := h.tasks i t hi
  simp only [Task.Good, hc] at hgood
  obtain ⟨⟨r, before, u, m, g, hr, -, -, hp⟩, hcreated, hheld⟩ := hgood
  obtain ⟨r', hrequest, hasync, -⟩ := id hheld
  obtain rfl := Option.some.inj (hr.request_eq.symm.trans hrequest)
  have hq := quiet_event (w := w) (t := t) (e := .cancelled i) rfl trivial .unwinding
  refine hq.inv h hi ⟨hcreated, h.good⟩ fun n hn => ?_
  have hn : t.pending = some n := hn
  rw [hn] at hp
  obtain ⟨s, l, k, -, hw⟩ := hp
  have htold := hr.told.append [.cancelled i]
  refine ⟨?_, hheld, ⟨r, before, u, m, hr.request_eq, htold⟩, g, l,
    hq.waits hw rfl rfl rfl ?_ ?_⟩
  · have hnil : r.lent = [] := by
      cases r with
      | stepIntoAsync | advanceAsync => rfl
      | _ => cases hasync
    exact List.map_eq_nil_iff.mp (hr.lent_eq.trans hnil)
  · exact List.mem_of_ne_of_mem (by simp)
  · exact List.mem_of_ne_of_mem (by simp)

/-! ### Owners that leave the caller -/

/-- The owners `ps` move into a new task. -/
def departed (w : World P α) (es : List (Event P α)) (ps : List (ℕ × Owner P)) (t : Task P α) :
    World P α := ({ w with log := es ++ w.log }.removeOwners (ps.map Prod.fst)).addTask t

section Departed

variable {es : List (Event P α)} {ps : List (ℕ × Owner P)}

omit [Scalar α] in
theorem mem_removed {x : ℕ × Owner P} {hs : List ℕ} (hx : x ∈ w.owners) (hname : x.1 ∉ hs) :
    x ∈ (w.removeOwners hs).owners :=
  List.mem_filter.mpr ⟨hx, decide_eq_true hname⟩

omit [Scalar α] in
theorem of_mem_removed {x : ℕ × Owner P} {hs : List ℕ} (hx : x ∈ (w.removeOwners hs).owners) :
    x ∈ w.owners ∧ x.1 ∉ hs := by
  obtain ⟨hx, hname⟩ := List.mem_filter.mp hx
  exact ⟨hx, of_decide_eq_true hname⟩

theorem Inv.owners_perm (h : w.Inv) (hnames : (ps.map Prod.fst).Nodup)
    (hps : ∀ p ∈ ps, p ∈ w.owners) :
    w.owners.Perm (ps ++ (w.removeOwners (ps.map Prod.fst)).owners) :=
  perm_filter_names h.names hnames hps

omit [Scalar α] in
theorem atoms_departed (hperm : w.owners.Perm (ps ++ (w.removeOwners (ps.map Prod.fst)).owners))
    (hres : t.frames.resources.Perm (ps.flatMap fun p => p.2.atoms)) :
    (w.departed es ps t).atoms.Perm w.atoms := by
  have howners := hperm.flatMap_right fun x : ℕ × Owner P => x.2.atoms
  rw [List.flatMap_append] at howners
  have hnew : (w.departed es ps t).atoms =
      (w.removeOwners (ps.map Prod.fst)).owners.flatMap (fun x => x.2.atoms) ++
        w.leaked.flatMap Owner.atoms ++
        (w.tasks.flatMap (fun t => t.frames.resources) ++ t.frames.resources) := by
    simp [atoms, departed, addTask, removeOwners]
  rw [hnew, ← List.append_assoc]
  refine List.perm_append_comm.trans ((hres.append_right _).trans ?_)
  rw [atoms, ← List.append_assoc, ← List.append_assoc]
  exact (howners.symm.append_right _).append_right _

theorem spares_departed (hes : ∀ e ∈ es, e.task = w.tasks.length ∧ e.Quiet) (own : List ℕ) :
    Spares w (w.departed es ps t) w.tasks.length own where
  log := ⟨es, rfl, fun e he => (hes e he).1⟩
  next := le_rfl
  status_eq _ _ _ := congrFun (status_quiet fun e he => (hes e he).2) _
  uncertain_eq _ _ _ := rfl
  memory_eq _ _ _ _ := rfl
  record_eq _ _ _ := congrFun (gridRecord_quiet fun e he => (hes e he).2) _
  sessions _ _ hx := hx
  flights _ _ _ hf := hf

/-- What a new task borrows, no other task and no owner in `ps` may use. -/
structure Borrows (w : World P α) (ps : List (ℕ × Owner P)) (t : Task P α) : Prop where
  owned : ∀ x ∈ t.shared ++ t.lent, ∃ o, (x.1, o) ∈ w.owners ∧ o.buffers = [x.2]
  free : ∀ x ∈ t.shared ++ t.lent, x.1 ∉ ps.map Prod.fst
  nodup : (t.lent.map Prod.fst).Nodup
  lent : ∀ n ∈ t.lent.map Prod.fst, n ∉ w.shared ∧ n ∉ w.lent ∧ n ∉ t.shared.map Prod.fst
  shared : ∀ n ∈ t.shared.map Prod.fst, n ∉ w.lent

omit [Scalar α] in
theorem mem_shared {x : ℕ × Buffer P} (ht : t ∈ w.tasks) (hx : x ∈ t.shared) : x.1 ∈ w.shared :=
  List.mem_flatMap.mpr ⟨t, ht, List.mem_map_of_mem hx⟩

omit [Scalar α] in
theorem mem_lent {x : ℕ × Buffer P} (ht : t ∈ w.tasks) (hx : x ∈ t.lent) : x.1 ∈ w.lent :=
  List.mem_flatMap.mpr ⟨t, ht, List.mem_map_of_mem hx⟩

/-- Owners that nobody borrows move into a new task. -/
theorem inv_departed (h : w.Inv) (hes : ∀ e ∈ es, e.task = w.tasks.length ∧ e.Quiet)
    (hgood : GoodLog (es ++ w.log)) (hnames : (ps.map Prod.fst).Nodup)
    (hps : ∀ p ∈ ps, p ∈ w.owners) (hfree : ∀ n ∈ ps.map Prod.fst, n ∉ w.shared ∧ n ∉ w.lent)
    (hres : t.frames.resources.Perm (ps.flatMap fun p => p.2.atoms)) (hb : Borrows w ps t)
    (ht : t.Good (w.departed es ps t) w.tasks.length) : (w.departed es ps t).Inv := by
  have hperm := h.owners_perm hnames hps
  have hatoms : (w.departed es ps t).atoms.Perm w.atoms := atoms_departed hperm hres
  have hspares : Spares w (w.departed es ps t) w.tasks.length [] := spares_departed hes []
  have htasks : (w.departed es ps t).tasks = w.tasks ++ [t] := rfl
  have hlent : (w.departed es ps t).lent = w.lent ++ t.lent.map Prod.fst := by
    simp [World.lent, htasks]
  have hshared : (w.departed es ps t).shared = w.shared ++ t.shared.map Prod.fst := by
    simp [World.shared, htasks]
  have hkeep : ∀ t' ∈ w.tasks, ∀ x ∈ t'.shared ++ t'.lent, x.1 ∉ ps.map Prod.fst := by
    intro t' ht' x hx hname
    obtain ⟨hns, hnl⟩ := hfree x.1 hname
    rcases List.mem_append.mp hx with hx | hx
    · exact hns (mem_shared ht' hx)
    · exact hnl (mem_lent ht' hx)
  exact {
    good := hgood
    logged := fun e he => by
      rw [htasks, List.length_append, List.length_singleton]
      rcases List.mem_append.mp he with he | he
      · rw [(hes e he).1]
        exact Nat.lt_succ_self _
      · exact lt_of_lt_of_le (h.logged e he) (Nat.le_succ _)
    accounts := (h.accounts.perm hatoms.symm).congr rfl
    nodup := (ids_perm hatoms).nodup_iff.mpr h.nodup
    fresh := fun id hid => h.fresh id ((ids_perm hatoms).mem_iff.mp hid)
    absent := fun id hid => (congrFun (status_quiet fun e he => (hes e he).2) id).trans
      (h.absent id hid)
    holds := fun id data hid =>
      h.holds id data ((congrFun (status_quiet fun e he => (hes e he).2) id).symm.trans hid)
    names := h.names.sublist (List.filter_sublist.map _)
    named := fun x hx => h.named x (of_mem_removed hx).1
    owners := fun x hx => by
      have hx := (of_mem_removed hx).1
      exact hspares.owner (fun id hid => ⟨List.not_mem_nil, h.owner_fresh hx hid⟩) (h.owners x hx)
    leaked := h.leaked
    borrows := fun t' ht' x hx => by
      rcases List.mem_append.mp ht' with ht' | ht'
      · obtain ⟨o, ho, hbuffers⟩ := h.borrows t' ht' x hx
        exact ⟨o, mem_removed ho (hkeep t' ht' x hx), hbuffers⟩
      · obtain rfl := List.mem_singleton.mp ht'
        obtain ⟨o, ho, hbuffers⟩ := hb.owned x hx
        exact ⟨o, mem_removed ho (hb.free x hx), hbuffers⟩
    lent := by
      rw [hlent]
      exact List.nodup_append.mpr ⟨h.lent, hb.nodup, fun a ha b hb' he => (hb.lent b hb').2.1 (he ▸ ha)⟩
    apart := by
      rw [hlent, hshared]
      intro n hn hmem
      rcases List.mem_append.mp hn with hn | hn
      · rcases List.mem_append.mp hmem with hmem | hmem
        · exact h.apart n hn hmem
        · exact hb.shared n hmem hn
      · obtain ⟨hns, -, hnt⟩ := hb.lent n hn
        rcases List.mem_append.mp hmem with hmem | hmem
        · exact hns hmem
        · exact hnt hmem
    tasks := fun j t' hj => by
      rw [htasks] at hj
      by_cases hlt : j < w.tasks.length
      · rw [List.getElem?_append_left hlt] at hj
        refine hspares.task (Nat.ne_of_lt hlt) (fun id hid => ?_) (h.tasks j t' hj)
        exact ⟨List.not_mem_nil, h.reach_fresh (List.mem_of_getElem? hj) hid⟩
      · obtain rfl : j = w.tasks.length := by
          have hle := (List.getElem?_eq_some_iff.mp hj).1
          rw [List.length_append, List.length_singleton] at hle
          omega
        rw [List.getElem?_concat_length] at hj
        exact Option.some.inj hj ▸ ht
    flights := fun k f hf hrun => by
      obtain ⟨t', ht', hp⟩ := h.flights k f hf hrun
      refine ⟨t', ?_, hp⟩
      rw [htasks, List.getElem?_append_left (List.getElem?_eq_some_iff.mp ht').1]
      exact ht' }

end Departed

omit [Scalar α] in
theorem mem_of_owner? {h : ℕ} {o : Owner P} (ho : w.owner? h = some o) : (h, o) ∈ w.owners := by
  obtain ⟨x, hx, rfl⟩ := Option.map_eq_some_iff.mp ho
  have hname := List.find?_some hx
  obtain rfl := of_decide_eq_true hname
  exact List.mem_of_find?_eq_some hx

/-- An owner goes out of scope. -/
theorem inv_dropOwner (h : w.Inv) (n : ℕ) : (w.dropOwner n).Inv := by
  simp only [dropOwner]
  cases ho : w.owner? n with
  | none => exact h
  | some o =>
    by_cases hfree : n ∉ w.shared ∧ n ∉ w.lent
    · simp only [hfree, not_false_eq_true, and_self, if_true]
      let t : Task P α := ⟨none, [o.entries], .unwinding, none, [], []⟩
      have hinv : (w.departed [] [(n, o)] t).Inv := by
        refine inv_departed h (fun e he => absurd he List.not_mem_nil) h.good
          (List.nodup_singleton n) ?_ ?_ ?_ ?_ nofun
        · rintro p hp
          obtain rfl := List.mem_singleton.mp hp
          exact mem_of_owner? ho
        · rintro k hk
          obtain rfl := List.mem_singleton.mp hk
          exact hfree
        · exact .of_eq (o.resources_entries.trans (List.append_nil _).symm)
        · exact ⟨nofun, nofun, List.nodup_nil, nofun, nofun⟩
      exact hinv
    · simp only [hfree, if_false]
      exact h

/-- No task moves. -/
structure Still (w w' : World P α) : Prop where
  log_eq : w'.log = w.log
  memory_eq : w'.memory = w.memory
  uncertain_eq : w'.uncertain = w.uncertain
  next_eq : w'.nextStorage = w.nextStorage
  nextOwner_eq : w'.nextOwner = w.nextOwner
  tasks_eq : w'.tasks = w.tasks
  flights_eq : w'.flights = w.flights
  sessions : ∀ s x, w.session? s = some x → w'.session? s = some x
  owners : w'.owners.Sublist w.owners
  borrowed : ∀ x ∈ w.owners, x.1 ∈ w.shared ∨ x.1 ∈ w.lent → x ∈ w'.owners
  atoms : w'.atoms.Perm w.atoms
  accounts : w'.Accounted w.atoms
  leaked : ∀ o ∈ w'.leaked, o.Kept

theorem Still.inv (hs : Still w w') (h : w.Inv) : w'.Inv := by
  have hspares : Spares w w' w.tasks.length [] := by
    refine ⟨⟨[], hs.log_eq, fun _ he => absurd he List.not_mem_nil⟩, hs.next_eq.ge, ?_, ?_, ?_, ?_,
      hs.sessions, ?_⟩
    · exact fun id _ _ => by rw [hs.log_eq]
    · exact fun id _ _ => congrFun hs.uncertain_eq id
    · exact fun id _ _ n => congrFun hs.memory_eq _
    · exact fun id _ _ => by rw [hs.log_eq]
    · exact fun n f _ hf => hs.flights_eq ▸ hf
  exact {
    good := hs.log_eq ▸ h.good
    logged := by
      rw [hs.log_eq, hs.tasks_eq]
      exact h.logged
    accounts := hs.accounts.perm hs.atoms.symm
    nodup := (ids_perm hs.atoms).nodup_iff.mpr h.nodup
    fresh := by
      rw [hs.next_eq]
      exact fun id hid => h.fresh id ((ids_perm hs.atoms).mem_iff.mp hid)
    absent := by
      rw [hs.next_eq, hs.log_eq]
      exact h.absent
    holds := by
      rw [hs.log_eq, hs.memory_eq]
      exact h.holds
    names := h.names.sublist (hs.owners.map _)
    named := by
      rw [hs.nextOwner_eq]
      exact fun x hx => h.named x (hs.owners.subset hx)
    owners := fun x hx => by
      have hx := hs.owners.subset hx
      exact hspares.owner (fun id hid => ⟨List.not_mem_nil, h.owner_fresh hx hid⟩) (h.owners x hx)
    leaked := hs.leaked
    borrows := by
      rw [hs.tasks_eq]
      intro t ht x hx
      obtain ⟨o, ho, hbuffers⟩ := h.borrows t ht x hx
      refine ⟨o, hs.borrowed _ ho ?_, hbuffers⟩
      exact (List.mem_append.mp hx).imp (mem_shared ht) (mem_lent ht)
    lent := by
      rw [World.lent, hs.tasks_eq]
      exact h.lent
    apart := by
      rw [World.lent, World.shared, hs.tasks_eq]
      exact h.apart
    tasks := by
      rw [hs.tasks_eq]
      intro i t hi
      refine hspares.task (Nat.ne_of_lt (List.getElem?_eq_some_iff.mp hi).1) ?_ (h.tasks i t hi)
      exact fun id hid => ⟨List.not_mem_nil, h.reach_fresh (List.mem_of_getElem? hi) hid⟩
    flights := by
      rw [hs.tasks_eq, hs.flights_eq]
      exact h.flights }

/-- An owner is forgotten. -/
theorem inv_forgetOwner (h : w.Inv) (n : ℕ) : (w.forgetOwner n).Inv := by
  simp only [forgetOwner]
  cases ho : w.owner? n with
  | none => exact h
  | some o =>
    by_cases hfree : n ∉ w.shared ∧ n ∉ w.lent
    · simp only [hfree, not_false_eq_true, and_self, if_true]
      have hmem := mem_of_owner? ho
      have hone : ∀ p ∈ [(n, o)], p ∈ w.owners := fun p hp => List.mem_singleton.mp hp ▸ hmem
      have hperm : w.owners.Perm ([(n, o)] ++ (w.removeOwners [n]).owners) :=
        h.owners_perm (List.nodup_singleton n) hone
      have hatoms : ({ w.removeOwners [n] with leaked := o :: w.leaked } : World P α).atoms.Perm
          w.atoms := by
        have howners := hperm.flatMap_right fun x : ℕ × Owner P => x.2.atoms
        rw [List.flatMap_append, List.flatMap_singleton] at howners
        refine List.Perm.append_right _ ?_
        refine List.Perm.trans ?_ (howners.symm.append_right _)
        rw [List.append_assoc]
        exact List.perm_append_comm_assoc ..
      suffices hs : Still w { w.removeOwners [n] with leaked := o :: w.leaked } from hs.inv h
      refine ⟨rfl, rfl, rfl, rfl, rfl, rfl, rfl, fun _ _ hx => hx, List.filter_sublist, ?_, hatoms,
        h.accounts.congr rfl, ?_⟩
      · intro x hx hborrowed
        refine mem_removed hx fun hname => ?_
        rw [List.mem_singleton.mp hname] at hborrowed
        exact hborrowed.elim hfree.1 hfree.2
      · intro o' ho'
        rcases List.mem_cons.mp ho' with rfl | ho'
        · exact (h.owners _ hmem).kept
        · exact h.leaked o' ho'
    · simp only [hfree, if_false]
      exact h

omit [Scalar α] in
theorem session?_append {s : ℕ} {x : Session} {d : ℕ × Budget P} (hs : w.session? s = some x) :
    ({ w with sessions := w.sessions ++ [d] } : World P α).session? s = some x := by
  obtain ⟨y, hy, rfl⟩ := Option.map_eq_some_iff.mp hs
  simp only [session?, List.getElem?_append_left (List.getElem?_eq_some_iff.mp hy).1, hy,
    Option.map_some]

/-- A new session. -/
theorem inv_newGpu (h : w.Inv) (device : ℕ) (limits : ResourceLimits P) :
    ({ w with sessions := w.sessions ++ [(device, Budget.new limits)] } : World P α).Inv := by
  suffices hs : Still w { w with sessions := w.sessions ++ [(device, Budget.new limits)] } from
    hs.inv h
  refine ⟨rfl, rfl, rfl, rfl, rfl, rfl, rfl, fun _ _ => session?_append, .refl _, fun _ hx _ => hx,
    .refl _, ?_, h.leaked⟩
  intro s
  obtain ⟨hsome, hnone⟩ := h.accounts s
  by_cases hlt : s < w.sessions.length
  · simp only [budget?, List.getElem?_append_left hlt]
    exact ⟨hsome, hnone⟩
  · have hle : w.sessions[s]? = none := List.getElem?_eq_none (by omega)
    have hnil := hnone (by rw [budget?, hle]; rfl)
    refine ⟨fun b hb => ?_, fun _ => hnil⟩
    rw [hnil]
    have hs : s = w.sessions.length := by
      obtain ⟨y, hy, -⟩ := Option.map_eq_some_iff.mp hb
      have := (List.getElem?_eq_some_iff.mp hy).1
      rw [List.length_append, List.length_singleton] at this
      omega
    simp only [budget?, hs, List.getElem?_concat_length, Option.map_some] at hb
    exact Option.some.inj hb ▸ Budget.accounts_new limits

end World
end Gudra
