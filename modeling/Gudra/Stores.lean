import Gudra.Quiet

/-! Moves of a task that change its own flags and allocations. -/
namespace Gudra

open Scope Interleave

variable {P : Platform} {α : Type} [Scalar α]

namespace World

variable {w w' : World P α} {i : ℕ} {t t' : Task P α} {g g' : Ghost α}

/-- `Completion::run` changes a flag. -/
theorem inv_setCompletion (h : w.Inv) (hi : w.tasks[i]? = some t) {id : ℕ} {uncertain : Bool}
    {k : Unit → Script α (Except Error (Outcome P α))}
    (hc : t.control = .active (.eff (.setCompletion id uncertain) k)) :
    ({ w with uncertain := Function.update w.uncertain id uncertain }.setTask i
      { t with control := .active (k ()) }).Inv := by
  obtain ⟨⟨hpending, r, before, u, m, g, hr, ⟨hexcl, -, hready, hinv, hwp⟩, -, hk⟩, hpolled⟩ :=
    And.intro (Goes.idle (h.active hi hc).1 nofun) (h.active hi hc).2
  rw [exclusive_eq hr] at hexcl
  have hself : Function.update w.uncertain id uncertain id = uncertain := Function.update_self ..
  have hother : ∀ id' ≠ id, Function.update w.uncertain id uncertain id' = w.uncertain id' :=
    fun id' hne => Function.update_of_ne hne _ _
  have hs : Spares w ({ w with uncertain := Function.update w.uncertain id uncertain }.setTask i
      { t with control := .active (k ()) }) i t.exclusive := by
    refine ⟨⟨[], rfl, fun _ he => absurd he List.not_mem_nil⟩, le_rfl, fun _ _ _ => rfl, ?_,
      fun _ _ _ _ => rfl, fun _ _ _ => rfl, fun _ _ hx => hx, fun _ _ _ hf => hf⟩
    exact fun id' hid _ => hother id' fun he => hid (he ▸ hexcl)
  suffices hl : Local w _ i t { t with control := .active (k ()) } from hl.inv hi h
  refine ⟨hs, rfl, rfl, rfl, rfl, .inl ⟨rfl, rfl⟩, h.good, h.absent, fun id data _ => h.holds id data,
    ?_, fun _ hxs => hxs.congr rfl, ?_, ?_, ?_⟩
  · exact (List.sublist_append_right _ _).subperm
  · intro x hx hu
    by_cases hid : x.2.id = id
    · have hfalse : uncertain = false := by
        rw [hid] at hu
        exact hself.symm.trans hu
      have hlent : x.2.tensor.storage ∈ r.lent.map fun b => b.tensor.storage := by
        rw [← hr.lent_eq]
        exact List.mem_map_of_mem (List.mem_map_of_mem hx)
      obtain ⟨data, hdata, hlen⟩ := hready hfalse _ hlent hid
      refine ⟨data, (hk.status_eq _ ?_).symm.trans hdata, hlen⟩
      exact List.mem_append_left _ (List.mem_append_right _
        (List.mem_map_of_mem (f := fun x => x.2.id) hx))
    · exact h.lent_ready hi hx ((hother _ hid).symm.trans hu)
  · refine (good_active rfl).mpr ⟨Runs.goes (m := m) (g := g.setCompletion id uncertain) ?_ hpending
      hwp hinv
      ?_, hpolled⟩
    · exact hs.runs_self hr rfl rfl rfl (fun _ hid => .inl hid) hr.alive
        (fun hk => ⟨hk, fun _ _ _ => rfl⟩) rfl
    · refine ⟨hk.status_eq, fun id' hid => ?_, hk.kernels_eq, hk.polled, hk.stopped, hk.refused⟩
      by_cases he : id' = id
      · rw [he]
        exact (Function.update_self ..).trans hself.symm
      · exact (Function.update_of_ne he _ _).trans
          ((hk.uncertain_eq id' hid).trans (hother id' he).symm)
  · exact fun n f hf hrun => h.flight_cases hi hf hrun

/-- The world after task `i` received a new allocation. -/
def uploaded (w : World P α) (i : ℕ) (s : Storage) (data : List α) : World P α :=
  { w with
    nextStorage := w.nextStorage + 1
    uncertain := Function.update w.uncertain s.id false
    memory := fun a => if a.1 = s.id then data.getD a.2 (w.memory a) else w.memory a
    log := .uploaded i s data :: .device i true :: w.log }

section Upload

variable {s : Storage} {data : List α}

theorem status_uploaded_self : status (w.uploaded i s data).log s.id = .settled data :=
  Function.update_self ..

theorem status_uploaded_of_ne {id : ℕ} (hne : id ≠ s.id) :
    status (w.uploaded i s data).log id = status w.log id := Function.update_of_ne hne _ _

theorem spares_uploaded (i : ℕ) (data : List α) (hs : s.id = w.nextStorage) (t' : Task P α) (own : List ℕ) :
    Spares w ((w.uploaded i s data).setTask i t') i own where
  log := by
    refine ⟨[.uploaded i s data, .device i true], rfl, fun e he => ?_⟩
    rcases List.mem_cons.mp he with rfl | he
    · rfl
    · rw [List.mem_singleton.mp he, Event.task]
  next := Nat.le_succ _
  status_eq id _ hlt := status_uploaded_of_ne (by omega)
  uncertain_eq id _ hlt := Function.update_of_ne (by omega) _ _
  memory_eq id _ hlt n := if_neg (by simp only; omega)
  record_eq _ _ _ := rfl
  sessions _ _ hx := hx
  flights _ _ _ hf := hf

omit [Scalar α] in
theorem reach_uploaded {x : Name} {control : Control P α} {id : ℕ}
    (hid : id ∈ ({ t with
      frames := Frames.push [(x, .storage s)] t.frames, control } : Task P α).reach) :
    id = s.id ∨ id ∈ t.reach := by
  have hids := ids_perm (push_perm [(x, Atom.storage s)] t.frames)
  simp only [Task.reach, Task.exclusive, List.mem_append, hids.mem_iff] at hid ⊢
  rcases hid with (hid | hid) | hid
  · rcases List.mem_cons.mp hid with rfl | hid
    · exact .inl rfl
    · exact .inr (.inl (.inl hid))
  · exact .inr (.inl (.inr hid))
  · exact .inr (.inr hid)

omit [Scalar α] in
theorem mem_uploaded {e : Event P α} (hd : ∀ b, e ≠ .device i b) (hu : ∀ s d, e ≠ .uploaded i s d) :
    e ∈ (w.uploaded i s data).log ↔ e ∈ w.log := by
  refine ⟨fun he => ?_, fun he => List.mem_cons_of_mem _ (List.mem_cons_of_mem _ he)⟩
  exact (List.mem_cons.mp ((List.mem_cons.mp he).resolve_left (hu s data))).resolve_left (hd true)

omit [Scalar α] in
theorem kernelsOf_uploaded : kernelsOf i (w.uploaded i s data).log = kernelsOf i w.log :=
  (kernelsOf_of_none rfl).trans (kernelsOf_of_none rfl)

theorem knows_uploaded {reach reach' : List ℕ} (hk : Knows w i reach g)
    (hold : ∀ id ∈ reach, id ≠ s.id) (hreach : ∀ id ∈ reach', id = s.id ∨ id ∈ reach) :
    Knows (w.uploaded i s data) i reach' (g.store s.id data) where
  status_eq id hid := by
    rcases hreach id hid with rfl | hid
    · exact (Function.update_self ..).trans status_uploaded_self.symm
    · exact (Function.update_of_ne (hold _ hid) _ _).trans
        ((hk.status_eq _ hid).trans (status_uploaded_of_ne (hold _ hid)).symm)
  uncertain_eq id hid := by
    have hself : (w.uploaded i s data).uncertain s.id = false := Function.update_self ..
    rcases hreach id hid with rfl | hid
    · exact (Function.update_self ..).trans hself.symm
    · exact (Function.update_of_ne (hold _ hid) _ _).trans
        ((hk.uncertain_eq _ hid).trans (Function.update_of_ne (hold _ hid) _ _).symm)
  kernels_eq := kernelsOf_uploaded.trans hk.kernels_eq
  polled := hk.polled.trans (mem_uploaded (e := .created i) nofun nofun).symm
  stopped := by
    refine hk.stopped.trans ⟨fun hmem => ?_, fun hmem => ?_⟩
    · exact List.mem_cons_of_mem _ (List.mem_cons_of_mem _ hmem)
    · exact (List.mem_cons.mp ((List.mem_cons.mp hmem).resolve_left nofun)).resolve_left nofun
  refused e he := by
    obtain ⟨n, hn⟩ := hk.refused e he
    exact ⟨n, List.mem_cons_of_mem _ (List.mem_cons_of_mem _ hn)⟩

/-- A new allocation joins the task. -/
theorem inv_upload (h : w.Inv) (hi : w.tasks[i]? = some t) {x : Name} {session : Session}
    {k : Except String Storage → Script α (Except Error (Outcome P α))}
    (hc : t.control = .active (.eff (.upload x session data) k))
    (hs : s = ⟨w.nextStorage, session.device, session.id, data.length⟩) :
    ((w.uploaded i s data).setTask i { t with
      frames := Frames.push [(x, .storage s)] t.frames, control := .active (k (.ok s)) }).Inv := by
  obtain ⟨hpending, r, before, u, m, g, hr, ⟨hwork, -, hok⟩, -, hk⟩ :=
    Goes.idle (h.active hi hc).1 nofun
  have hid : s.id = w.nextStorage := by rw [hs]
  have hlen : data.length = s.len := by rw [hs]
  have hold : ∀ id ∈ t.reach, id ≠ s.id := by
    intro id hmem
    have := h.reach_fresh (List.mem_of_getElem? hi) hmem
    omega
  obtain ⟨hinv, hwp⟩ := hok s (by rw [hs]) (by rw [hs]) hlen.symm
    (fun hmem => hold _ (reach_eq hr (Ghost.start before u) ▸ hmem) rfl)
  have hperm := push_perm [(x, Atom.storage s)] t.frames
  suffices hl : Local w _ i t { t with
      frames := Frames.push [(x, .storage s)] t.frames, control := .active (k (.ok s)) } from
    hl.inv hi h
  have hspares := spares_uploaded i data hid { t with
      frames := Frames.push [(x, .storage s)] t.frames, control := .active (k (.ok s)) } t.exclusive
  refine ⟨hspares, rfl, rfl, rfl, rfl, .inl ⟨rfl, rfl⟩, ?_, ?_, ?_, ?_, ?_, ?_, ?_, ?_⟩
  · have htold : Told (.device i true :: w.log) i r before u m := hr.told.append [.device i true]
    exact ⟨⟨h.absent _ hid.ge, hlen, r, before, u, m, htold, hwork⟩,
      ⟨r, before, u, m, hr.told, hwork⟩, h.good⟩
  · intro id hle
    have hlt : w.nextStorage + 1 ≤ id := hle
    exact (status_uploaded_of_ne (by omega)).trans (h.absent id (by omega))
  · intro id data' _ hstatus
    by_cases he : id = s.id
    · subst he
      have hdata := Status.settled.inj (status_uploaded_self.symm.trans hstatus)
      intro n a ha
      refine (if_pos rfl).trans ?_
      rw [hdata, List.getD_eq_getElem?_getD, ha]
      rfl
    · have hstatus : status (w.uploaded i s data).log id = .settled data' := hstatus
      rw [status_uploaded_of_ne he] at hstatus
      exact (h.holds id data' hstatus).congr fun n => if_neg he
  · have hids : (ids (Frames.push [(x, Atom.storage s)] t.frames).resources).Perm
        ([s.id] ++ ids t.frames.resources) := (ids_perm hperm).trans (.of_eq ids_storage)
    have hrange : List.range' w.nextStorage (w.nextStorage + 1 - w.nextStorage) = [s.id] := by
      rw [hid, Nat.add_sub_cancel_left, List.range'_one]
    exact hrange ▸ hids.subperm
  · intro xs hxs
    have hxs : w.Accounted (.storage s :: (t.frames.resources ++ xs)) := hxs
    exact (hxs.perm (hperm.append_right xs).symm).congr rfl
  · intro y hy hu
    have hne : y.2.id ≠ s.id := hold _ (List.mem_append_left _ (List.mem_append_right _
      (List.mem_map_of_mem (f := fun x => x.2.id) hy)))
    obtain ⟨d, hd, hlen⟩ := h.lent_ready hi hy ((Function.update_of_ne hne _ _).symm.trans hu)
    exact ⟨d, (status_uploaded_of_ne hne).trans hd, hlen⟩
  · refine (good_active rfl).mpr ⟨?_, fun hmem => (mem_uploaded (e := .polled i) nofun nofun).mpr ?_⟩
    · refine Runs.goes (m := m) (g := g.store s.id data) ?_ hpending hwp hinv
        ((knows_uploaded hk hold fun id => reach_uploaded).congr rfl rfl)
      refine hspares.runs_self hr rfl rfl rfl (fun id hmem => ?_) ?_ (fun hnil => ?_) rfl
      · rcases reach_uploaded hmem with rfl | hmem
        · exact .inr hid.ge
        · exact .inl hmem
      · exact fun hmem => hr.alive ((mem_uploaded (e := .cancelled i) nofun nofun).mp hmem)
      · refine ⟨kernelsOf_uploaded.symm.trans hnil, fun b hb n => if_neg ?_⟩
        exact hold _ (borrowed_reach hr.shared_eq hr.lent_eq hb)
    · exact (h.active hi hc).2 ((mem_uploaded (e := .created i) nofun nofun).mp hmem)
  · exact fun n f hf hrun => h.flight_cases hi hf hrun

end Upload

end World
end Gudra
