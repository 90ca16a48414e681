import Gudra.Executions

/-! A call returns: its result becomes the caller's. -/
namespace Gudra

open Scope Interleave

variable {P : Platform} {α : Type}

/-- On arguments that pass, every buffer of the call may be read. -/
theorem ready_of_check {r : Request P α} {g : Ghost α} (hpre : r.Pre g)
    (hcheck : r.check g.uncertain = .ok ()) : ∀ b ∈ r.buffers, g.Ready b.tensor.storage := by
  have haccepted : ∀ {source : HaloGrid2D P} {fields : List (Field2D P)} {session : Session},
      Accepted g.uncertain session source fields → .halo source ∈ r.named →
      (∀ f ∈ fields, .field f ∈ r.named) →
      ∀ b ∈ source.storage :: fields.map (·.storage), g.Ready b.tensor.storage := by
    intro source fields session ha hsource hfields b hb
    rcases List.mem_cons.mp hb with rfl | hb
    · exact hpre.ready _ hsource ha.source_ok.certain
    · obtain ⟨f, hf, rfl⟩ := List.mem_map.mp hb
      exact hpre.ready _ (hfields f hf) (ha.field_ok f hf).certain
  cases r with
  | step session source rhs params =>
    refine haccepted (validateFields_ok hcheck) List.mem_cons_self fun f hf => ?_
    obtain rfl := List.mem_singleton.mp hf
    exact List.mem_cons_of_mem _ List.mem_cons_self
  | stepInto session source rhs output params =>
    refine haccepted (validateFields_ok hcheck) List.mem_cons_self fun f hf => ?_
    exact List.mem_cons_of_mem _ (List.mem_map_of_mem (f := Owner.field) hf)
  | laplacianInto session source output params =>
    refine haccepted (validateFields_ok hcheck) List.mem_cons_self fun f hf => ?_
    exact List.mem_cons_of_mem _ (List.mem_map_of_mem (f := Owner.field) hf)
  | stepIntoAsync session source rhs output params =>
    refine haccepted (validateFields_ok hcheck) List.mem_cons_self fun f hf => ?_
    exact List.mem_cons_of_mem _ (List.mem_map_of_mem (f := Owner.field) hf)
  | advance grid => exact hpre.ready (.grid grid) List.mem_cons_self
  | advanceAsync grid => exact hpre.ready (.grid grid) List.mem_cons_self
  | observe grid => exact hpre.ready (.grid grid) List.mem_cons_self
  | intoHost field =>
    intro b hb
    obtain rfl := List.mem_singleton.mp hb
    exact hpre.ready (.field field) List.mem_cons_self (ensureReady_eq_ok.mp hcheck)
  | _ => exact nofun

theorem DoubleGrid.At.congr {d : DoubleGrid P} {g g' : Ghost α} {x : List α × List α} {f : List α}
    (hat : d.At g x f) (hs : ∀ b ∈ d.buffers, g'.status b.id = g.status b.id) : d.At g' x f :=
  ⟨(hs _ (mem_grid_buffers.mpr (.inl rfl))).trans hat.current_eq, hat.current_len,
    (hs _ (mem_grid_buffers.mpr (.inr (.inl rfl)))).trans hat.next_eq, hat.next_len,
    (hs _ (mem_grid_buffers.mpr (.inr (.inr rfl)))).trans hat.rhs_eq, hat.rhs_len⟩

variable [Scalar α]

namespace World

variable {w w' : World P α} {i n : ℕ} {t t' : Task P α} {g g' : Ghost α} {o : Outcome P α}
  {r : Request P α} {before log : List (Event P α)} {u : ℕ → Bool} {m : Addr → α}
  {args : List (Bool × List α)} {stored : List (List α)}

/-- The grid of a result is the grid of the call, or a new one. -/
theorem grid_of_result {d : DoubleGrid P} {xs ys zs : List (List α)} (hresult : r.Result xs o ys zs)
    (hd : .grid d ∈ r.named) : ∃ d', .grid d' ∈ o.owners ∧ d'.rhs = d.rhs := by
  cases r with
  | advance grid count params | advanceAsync grid count params =>
    obtain rfl : d = grid := by simpa [Request.named] using hd
    cases o with
    | grid d' =>
      obtain ⟨rfl, -⟩ := hresult
      exact ⟨_, List.mem_cons_self, DoubleGrid.after_rhs⟩
    | _ => exact hresult.elim
  | observe grid =>
    obtain rfl : d = grid := by simpa [Request.named] using hd
    cases o with
    | observed d' data =>
      obtain ⟨rfl, -⟩ := hresult
      exact ⟨_, List.mem_cons_self, rfl⟩
    | _ => exact hresult.elim
  | _ => simp [Request.named] at hd

/-- The contents of a recorded grid. -/
theorem recorded_data {d : DoubleGrid P} {rec : GridRecord P α} {x y f : List α}
    (hat : d.At (Ghost.start before fun _ => false) rec.contents rec.rhs)
    (hdata : d.buffers.map (fun b => (Ghost.start before u).data b.tensor.storage) = [x, y, f]) :
    rec.contents = (x, y) ∧ rec.rhs = f := by
  have heq : [rec.contents.1, rec.contents.2, rec.rhs] = [x, y, f] := hat.data_eq.symm.trans hdata
  simp only [List.cons.injEq, and_true] at heq
  exact ⟨Prod.ext heq.1 heq.2.1, heq.2.2⟩

/-- The record of a batch that a grid completed. -/
theorem recorded_batch {d : DoubleGrid P} {count : ℕ} {params : JacobiParams α} {x y f : List α}
    (hbefore : Recorded before d)
    (hrecord : gridRecord log d.rhs.storage.id = gridRecord before d.rhs.storage.id)
    (hshape : (d.after count).shape = d.shape)
    (hdata : d.buffers.map (fun b => (Ghost.start before u).data b.tensor.storage) = [x, y, f])
    {log' : List (Event P α)}
    (hlog : gridRecord log' d.rhs.storage.id =
      (gridRecord log d.rhs.storage.id).map fun r => r.append count params)
    (hat : (d.after count).At (Ghost.start log' fun _ => false)
      ((d.shape.advanced params f)^[count] (x, y)) f) : Recorded log' (d.after count) := by
  obtain ⟨rec, hrec, hshape₀, hcount, hat₀⟩ := hbefore
  obtain ⟨hcontents, rfl⟩ := recorded_data hat₀ hdata
  have hafter : (rec.append count params).contents =
      (d.shape.advanced params rec.rhs)^[count] (x, y) := by
    simp only [GridRecord.contents, GridRecord.append, List.foldl_append, List.foldl_cons,
      List.foldl_nil]
    rw [hshape₀, ← hcontents]
    rfl
  refine ⟨rec.append count params, ?_, hshape.trans hshape₀, ?_, hafter ▸ hat⟩
  · rw [DoubleGrid.after_rhs, hlog, hrecord, hrec]
    rfl
  · rw [DoubleGrid.after_completed, hcount, GridRecord.completed, GridRecord.completed]
    simp [GridRecord.append]

omit [Scalar α] in
theorem at_of_data {d : DoubleGrid P} {x y f : List α}
    (hready : ∀ b ∈ d.buffers, g.Ready b.tensor.storage)
    (hdata : d.buffers.map (fun b => g.data b.tensor.storage) = [x, y, f]) : d.At g (x, y) f := by
  have hat := grid_at hready
  have heq := hat.data_eq.symm.trans hdata
  simp only [List.cons.injEq, and_true] at heq
  obtain ⟨hx, hy, hf⟩ := heq
  rwa [hx, hy, hf] at hat

/-- Every grid of a result is recorded. -/
theorem recorded_of_returns {d : DoubleGrid P} (ht : Told w.log i r before u m)
    (hret : r.Returns (Ghost.start before u) o t.frames g)
    (hstatus : ∀ b ∈ o.stored, status w.log b.id = g.status b.id)
    (hrecord : ∀ d, .grid d ∈ r.named →
      gridRecord w.log d.rhs.storage.id = gridRecord before d.rhs.storage.id)
    (hd : .grid d ∈ o.owners) : Recorded (.returned i r (.ok o) args stored :: w.log) d := by
  have hresult := hret.result
  have hat : ∀ {d' : DoubleGrid P} {x y f : List α}, o.stored = d'.buffers →
      o.stored.map (fun b => g.data b.tensor.storage) = [x, y, f] →
      d'.At (Ghost.start (.returned i r (.ok o) args stored :: w.log) fun _ => false) (x, y) f := by
    intro d' x y f ho hdata
    rw [ho] at hdata
    refine (at_of_data (fun b hb => hret.ready b (ho ▸ hb)) hdata).congr fun b hb => ?_
    exact hstatus b (ho ▸ hb)
  cases r with
  | doubleGrid session shape initial rhs =>
    cases o with
    | grid d' =>
      obtain rfl : d = d' := by simpa [Outcome.owners] using hd
      obtain ⟨hshape, hcount, hdata⟩ := hresult
      exact ⟨⟨shape, initial, rhs, []⟩, Function.update_self .., hshape, hcount, hat rfl hdata⟩
    | _ => exact hresult.elim
  | advance grid count params | advanceAsync grid count params =>
    cases o with
    | grid d' =>
      obtain rfl : d = d' := by simpa [Outcome.owners] using hd
      obtain ⟨rfl, x, y, f, hargs, hdata⟩ := hresult
      have hmem : Owner.grid grid ∈ [Owner.grid grid] := List.mem_cons_self
      have hkept := (ht.pre.kept _ hmem).after (checkCount_eq_ok.mp hret.check)
      refine recorded_batch (ht.recorded grid hmem) (hrecord grid hmem) hkept.2.1 hargs ?_
        (hat rfl hdata)
      exact DoubleGrid.after_rhs (g := grid) (k := count) ▸ Function.update_self ..
    | _ => exact hresult.elim
  | observe grid =>
    cases o with
    | observed d' data =>
      obtain rfl : d = d' := by simpa [Outcome.owners] using hd
      obtain ⟨rfl, hdata, -⟩ := hresult
      have hmem : Owner.grid d ∈ [Owner.grid d] := List.mem_cons_self
      obtain ⟨rec, hrec, hshape, hcount, hat₀⟩ := ht.recorded d hmem
      have hdata₀ := hdata.trans hat₀.data_eq
      exact ⟨rec, (hrecord d hmem).trans hrec, hshape, hcount, hat rfl hdata₀⟩
    | _ => exact hresult.elim
  | _ => cases o <;> first | exact hresult.elim | simp [Outcome.owners] at hd

/-- What a call was given is what it knew. -/
theorem arguments_data (ht : Told log i r before u m) (hcheck : r.check u = .ok ()) :
    (arguments u m r.buffers).map Prod.snd =
      r.buffers.map fun b => (Ghost.start before u).data b.tensor.storage := by
  rw [arguments, List.map_map]
  refine List.map_congr_left fun b hb => ?_
  obtain ⟨data, hdata, hlen⟩ := ready_of_check ht.pre hcheck b hb
  exact ((ht.holds _ _ hdata).contents_eq hlen).trans (Ghost.data_of_status hdata).symm

/-- What a task may read is what it knows. -/
theorem snapshot_data (h : w.Inv) (hk : Knows w i t.reach g) {bs : List (Buffer P)}
    (hreach : ∀ b ∈ bs, b.id ∈ t.reach) (hready : ∀ b ∈ bs, g.Ready b.tensor.storage) :
    (w.snapshot bs).map Prod.snd = bs.map fun b => g.data b.tensor.storage := by
  rw [snapshot, List.map_map]
  exact List.map_congr_left fun b hb => Knows.contents_eq h hk (hreach b hb) (hready b hb)

/-- And what it knows is settled. -/
theorem snapshot_settled (h : w.Inv) (hk : Knows w i t.reach g) {bs : List (Buffer P)}
    (hreach : ∀ b ∈ bs, b.id ∈ t.reach) (hready : ∀ b ∈ bs, g.Ready b.tensor.storage) :
    Settled w.log bs ((w.snapshot bs).map Prod.snd) := by
  rw [snapshot_data h hk hreach hready, Settled, List.forall₂_map_right_iff, List.forall₂_same]
  intro b hb
  obtain ⟨data, hdata, -⟩ := hready b hb
  rw [Ghost.data_of_status hdata]
  exact (hk.status_eq _ (hreach b hb)).symm.trans hdata

omit [Scalar α] in
theorem stored_own {bs : List (Buffer P)} (hres : t.frames.resources.Perm (bs.flatMap Buffer.atoms))
    {b : Buffer P} (hb : b ∈ bs) : b.id ∈ ids t.frames.resources := by
  rw [(ids_perm hres).mem_iff, ids_flatMap]
  exact List.mem_flatMap.mpr ⟨b, hb, List.mem_cons_self⟩

omit [Scalar α] in
theorem own_reach {id : ℕ} (hid : id ∈ ids t.frames.resources) : id ∈ t.reach :=
  List.mem_append_left _ (List.mem_append_left _ hid)

/-- A failed call without executions leaves what it borrowed as it was. -/
theorem snapshot_unchanged (hr : Runs w i t r before u m) (hk : Knows w i t.reach g)
    {e : Error} (hfails : r.Fails (Ghost.start before u) e t.frames g)
    (hnil : kernelsOf i w.log = []) : w.snapshot r.borrowed = arguments u m r.borrowed := by
  refine List.map_congr_left fun b hb => ?_
  have hreach := borrowed_reach hr.shared_eq hr.lent_eq hb
  have hflag := (hfails.unchanged (hk.kernels_eq.symm.trans hnil) b hb).2
  have hmemory := hr.memory_eq hnil b hb
  refine Prod.ext ((hk.uncertain_eq _ hreach).symm.trans hflag) ?_
  exact List.map_congr_left fun n _ => hmemory n

/-- What the log says of a return. -/
theorem returned_good (h : w.Inv) {result : Except Error (Outcome P α)}
    (hr : Runs w i t r before u m) (hk : Knows w i t.reach g)
    (hpolled : .created i ∈ w.log → .polled i ∈ w.log)
    (hpost : r.post (Ghost.start before u) result t.frames g) :
    (Event.returned i r result (w.snapshot r.borrowed)
      ((w.snapshot (result.toOption.elim [] Outcome.stored)).map Prod.snd)).Good w.log := by
  refine ⟨before, u, m, hr.told, hr.alive, ?_⟩
  cases result with
  | error e =>
    have hfails : r.Fails (Ghost.start before u) e t.frames g := hpost
    refine ⟨snapshot_unchanged hr hk hfails, fun hasync hcreated => ?_, fun hcreated => ?_⟩
    · have hunpolled : g.polled = false := by
        by_contra hne
        exact hcreated (hk.polled.mp (by simpa using hne))
      exact (hfails.refused hasync hunpolled).imp id fun he => hk.refused e he
    · rw [hk.kernels_eq]
      exact hfails.unfinished (hk.polled.mpr hcreated)
  | ok o =>
    have hret : r.Returns (Ghost.start before u) o t.frames g := hpost
    have hborrowed : ∀ b ∈ r.borrowed, b.id ∈ t.reach :=
      fun b hb => borrowed_reach hr.shared_eq hr.lent_eq hb
    have hstored : ∀ b ∈ o.stored, b.id ∈ t.reach :=
      fun b hb => own_reach (stored_own hret.resources hb)
    have hready : ∀ b ∈ r.borrowed, g.Ready b.tensor.storage := fun b hb => (hret.borrowed b hb).2
    refine ⟨hret.check, ?_, ?_, hk.kernels_eq ▸ hret.final, ?_, ?_,
      snapshot_settled h hk hstored hret.ready, snapshot_settled h hk hborrowed hready⟩
    · intro x hx
      obtain ⟨b, hb, rfl⟩ := List.mem_map.mp hx
      exact (hk.uncertain_eq _ (hborrowed b hb)).symm.trans (hret.borrowed b hb).1
    · have hcontents := snapshot_data h hk hstored hret.ready
      rw [arguments_data hr.told hret.check, snapshot_data h hk hborrowed hready]
      exact hcontents ▸ hret.result
    · intro hasync
      obtain ⟨hp, hs⟩ := hret.polled hasync
      refine ⟨hpolled (hk.polled.mp hp), fun hmem => ?_⟩
      have hstopped := hk.stopped.mpr hmem
      rw [hs] at hstopped
      cases hstopped
    · intro d hd
      obtain ⟨d', hd', hrhs⟩ := grid_of_result hret.result hd
      refine hr.record_eq d hd (own_reach (hrhs ▸ stored_own hret.resources ?_))
      exact List.mem_flatMap.mpr ⟨.grid d', hd', mem_grid_buffers.mpr (.inr (.inr rfl))⟩

/-! ### The result moves to the caller -/

omit [Scalar α] in
theorem recordGrid_of_ne {result : Except Error (Outcome P α)} {rec : ℕ → Option (GridRecord P α)}
    {id : ℕ} (hne : ∀ d, result = .ok (.grid d) → id ≠ d.rhs.storage.id) :
    (Event.returned i r result args stored).recordGrid rec id = rec id := by
  cases result with
  | error e => cases r <;> rfl
  | ok o =>
    cases o with
    | grid d =>
      have hid := hne d rfl
      cases r with
      | doubleGrid | advance | advanceAsync => exact Function.update_of_ne hid _ _
      | _ => rfl
    | _ => cases r <;> rfl

omit [Scalar α] in
theorem names_new (os : List (Owner P)) (n : ℕ) :
    (os.mapIdx fun i o => (n + i, o)).map Prod.fst = List.range' n os.length := by
  refine List.ext_getElem (by simp) fun k _ _ => ?_
  simp

omit [Scalar α] in
theorem owners_new (os : List (Owner P)) (n : ℕ) :
    (os.mapIdx fun i o => (n + i, o)).map Prod.snd = os := by
  refine List.ext_getElem (by simp) fun k _ _ => ?_
  simp

omit [Scalar α] in
theorem names_append {xs : List (ℕ × Owner P)} {os : List (Owner P)} {k : ℕ}
    (hnodup : (xs.map Prod.fst).Nodup) (hlt : ∀ x ∈ xs, x.1 < k) :
    ((xs ++ os.mapIdx fun i o => (k + i, o)).map Prod.fst).Nodup := by
  rw [List.map_append, names_new]
  refine List.nodup_append.mpr ⟨hnodup, List.nodup_range', fun a ha b hb => ?_⟩
  obtain ⟨x, hx, rfl⟩ := List.mem_map.mp ha
  have hle := (List.mem_range'_1.mp hb).1
  have hlt := hlt x hx
  omega

omit [Scalar α] in
theorem named_append {xs : List (ℕ × Owner P)} {os : List (Owner P)} {k : ℕ}
    (hlt : ∀ x ∈ xs, x.1 < k) :
    ∀ x ∈ xs ++ os.mapIdx fun i o => (k + i, o), x.1 < k + os.length := by
  intro x hx
  rcases List.mem_append.mp hx with hx | hx
  · have := hlt x hx
    omega
  · have hmem : x.1 ∈ List.range' k os.length := names_new os k ▸ List.mem_map_of_mem hx
    exact (List.mem_range'_1.mp hmem).2

/-- The world after the call of task `i` ended with `result`. -/
def returned (w : World P α) (i : ℕ) (t : Task P α) (r : Request P α)
    (result : Except Error (Outcome P α)) : World P α :=
  ((w.record (.returned i r result (w.snapshot r.borrowed)
    ((w.snapshot (result.toOption.elim [] Outcome.stored)).map Prod.snd))).addOwners
      (result.toOption.elim [] Outcome.owners)).setTask i
        { t with frames := [], control := .finished, shared := [], lent := [] }

section Returned

variable {result : Except Error (Outcome P α)}

/-- The resources that are left are those of the result. -/
theorem resources_of_post (hpost : r.post (Ghost.start before u) result t.frames g) :
    t.frames.resources.Perm ((result.toOption.elim [] Outcome.owners).flatMap Owner.atoms) := by
  cases result with
  | error e =>
    have hfails : r.Fails (Ghost.start before u) e t.frames g := hpost
    exact .of_eq hfails.resources
  | ok o =>
    have hret : r.Returns (Ghost.start before u) o t.frames g := hpost
    refine hret.resources.trans (.of_eq ?_)
    exact List.flatMap_assoc

omit [Scalar α] in
theorem atoms_returned (hi : w.tasks[i]? = some t)
    (hres : t.frames.resources.Perm
      ((result.toOption.elim [] Outcome.owners).flatMap Owner.atoms)) :
    (w.returned i t r result).atoms.Perm w.atoms := by
  have hnew : (w.returned i t r result).tasks[i]? =
      some { t with frames := [], control := .finished, shared := [], lent := [] } :=
    List.getElem?_set_self (List.getElem?_eq_some_iff.mp hi).1
  refine (atoms_perm hnew).trans (List.Perm.trans ?_ (atoms_perm hi).symm)
  have hflat : ((result.toOption.elim [] Outcome.owners).mapIdx fun k o =>
      (w.nextOwner + k, o)).flatMap (fun x => x.2.atoms) =
        (result.toOption.elim [] Outcome.owners).flatMap Owner.atoms := by
    rw [← List.flatMap_map Prod.snd Owner.atoms, owners_new]
  have hothers : (w.returned i t r result).others i =
      w.owners.flatMap (fun x => x.2.atoms) ++
        (result.toOption.elim [] Outcome.owners).flatMap Owner.atoms ++
        w.leaked.flatMap Owner.atoms ++ (w.tasks.eraseIdx i).flatMap fun t => t.frames.resources := by
    simp only [others, returned, setTask, addOwners, record, List.eraseIdx_set_eq,
      List.flatMap_append, hflat]
  rw [hothers, others, resources_nil, List.nil_append, ← List.append_assoc, ← List.append_assoc]
  refine List.Perm.append_right _ (List.Perm.append_right _ ?_)
  exact List.perm_append_comm.trans (hres.symm.append_right _)

/-- A return changes the records of its own grids only. -/
theorem spares_returned (hown : ∀ b ∈ result.toOption.elim [] Outcome.stored,
    b.id ∈ ids t.frames.resources) :
    Spares w (w.returned i t r result) i (ids t.frames.resources) where
  log := by
    refine ⟨[_], rfl, fun e he => ?_⟩
    obtain rfl := List.mem_singleton.mp he
    rfl
  next := le_rfl
  status_eq _ _ _ := rfl
  uncertain_eq _ _ _ := rfl
  memory_eq _ _ _ _ := rfl
  record_eq id hid _ := by
    refine recordGrid_of_ne fun d hd he => hid ?_
    subst hd
    refine he ▸ hown d.rhs.storage ?_
    exact List.mem_flatMap.mpr ⟨.grid d, List.mem_cons_self, mem_grid_buffers.mpr (.inr (.inr rfl))⟩
  sessions _ _ hx := hx
  flights _ _ _ hf := hf

/-- What a call returns is good. -/
theorem returned_owner (hr : Runs w i t r before u m) (hk : Knows w i t.reach g)
    (hpost : r.post (Ghost.start before u) result t.frames g) {x : Owner P}
    (hx : x ∈ result.toOption.elim [] Outcome.owners) : x.Good (w.returned i t r result) := by
  cases result with
  | error e => cases hx
  | ok o =>
    have hret : r.Returns (Ghost.start before u) o t.frames g := hpost
    have hstored : ∀ b ∈ x.buffers, b ∈ o.stored := fun b hb => List.mem_flatMap.mpr ⟨x, hx, hb⟩
    have hstatus : ∀ b ∈ o.stored, status w.log b.id = g.status b.id := fun b hb =>
      (hk.status_eq _ (own_reach (stored_own hret.resources hb))).symm
    refine ⟨hret.kept x hx, ?_, fun b hb => ?_, ?_⟩
    · have hready : ∀ b ∈ x.buffers,
          (Ghost.start (w.returned i t r (.ok o)).log w.uncertain).Ready b.tensor.storage :=
        fun b hb => (hret.ready b (hstored b hb)).congr (hstatus b (hstored b hb))
      cases x with
      | halo d => exact fun _ => hready d.storage List.mem_cons_self
      | field d => exact fun _ => hready d.storage List.mem_cons_self
      | grid d => exact hready
    · rcases hret.session b (hstored b hb) with hs | hs
      · exact hr.known _ (.inl hs)
      · exact hr.known _ (.inr ⟨b, hs, rfl⟩)
    · rintro d rfl
      refine recorded_of_returns hr.told hret hstatus (fun d' hd' => ?_) hx
      obtain ⟨d'', hd'', hrhs⟩ := grid_of_result hret.result hd'
      refine hr.record_eq d' hd' (own_reach (hrhs ▸ stored_own hret.resources ?_))
      exact List.mem_flatMap.mpr
        ⟨.grid d'', hd'', mem_grid_buffers.mpr (.inr (.inr rfl))⟩

/-- A call returns. -/
theorem inv_returned (h : w.Inv) (hi : w.tasks[i]? = some t)
    (hc : t.control = .active (.ret result)) (hrequest : t.request = some r) :
    (w.returned i t r result).Inv := by
  obtain ⟨hgoes, hpolled⟩ := h.active hi hc
  obtain ⟨hpending, r', before, u, m, g, hr, hpost, -, hk⟩ := Goes.idle hgoes nofun
  obtain rfl := Option.some.inj (hrequest.symm.trans hr.request_eq)
  have hit := List.mem_of_getElem? hi
  have hres := resources_of_post hpost
  have hatoms := atoms_returned (w := w) (r := r) hi hres
  have hown : ∀ b ∈ result.toOption.elim [] Outcome.stored, b.id ∈ ids t.frames.resources := by
    intro b hb
    cases result with
    | error e => cases hb
    | ok o => exact stored_own (Request.Returns.resources hpost) hb
  have hspares := spares_returned (w := w) (i := i) (r := r) hown
  have htasks : (w.returned i t r result).tasks = w.tasks.set i
      { t with frames := [], control := .finished, shared := [], lent := [] } := rfl
  have hother : ∀ j ≠ i, (w.returned i t r result).tasks[j]? = w.tasks[j]? :=
    fun j hne => List.getElem?_set_ne hne.symm
  have hsafe : ∀ j t', j ≠ i → w.tasks[j]? = some t' → Safe w (ids t.frames.resources) t'.reach := by
    intro j t' hne hj id hid
    obtain ⟨hexcl, hlt⟩ := h.task_apart hi hj hne.symm id hid
    exact ⟨fun hmem => hexcl (List.mem_append_left _ hmem), hlt⟩
  exact {
    good := ⟨returned_good h hr hk hpolled hpost, h.good⟩
    logged := fun e he => by
      rw [htasks, List.length_set]
      rcases List.mem_cons.mp he with rfl | he
      · exact (List.getElem?_eq_some_iff.mp hi).1
      · exact h.logged e he
    accounts := (h.accounts.perm hatoms.symm).congr rfl
    nodup := (ids_perm hatoms).nodup_iff.mpr h.nodup
    fresh := fun id hid => h.fresh id ((ids_perm hatoms).mem_iff.mp hid)
    absent := h.absent
    holds := h.holds
    names := names_append h.names h.named
    named := named_append h.named
    owners := fun x hx => by
      rcases List.mem_append.mp hx with hx | hx
      · refine hspares.owner (fun id hid => ⟨?_, h.owner_fresh hx hid⟩) (h.owners x hx)
        exact h.owner_task_apart hx hid hit
      · refine returned_owner hr hk hpost ?_
        rw [← owners_new (result.toOption.elim [] Outcome.owners) w.nextOwner]
        exact List.mem_map_of_mem hx
    leaked := h.leaked
    borrows := h.borrows_set hi htasks (.inr ⟨rfl, rfl⟩) fun x hx => List.mem_append_left _ hx
    lent := (h.lent_set hi htasks (.inr ⟨rfl, rfl⟩)).1
    apart := (h.lent_set hi htasks (.inr ⟨rfl, rfl⟩)).2
    tasks := fun j t' hj => by
      by_cases hne : j = i
      · subst hne
        have hself : (w.returned j t r result).tasks[j]? =
            some { t with frames := [], control := .finished, shared := [], lent := [] } :=
          List.getElem?_set_self (List.getElem?_eq_some_iff.mp hi).1
        obtain rfl := Option.some.inj (hself.symm.trans hj)
        exact ⟨rfl, hpending, rfl, rfl⟩
      · rw [hother j hne] at hj
        exact hspares.task hne (hsafe j t' hne hj) (h.tasks j t' hj)
    flights := fun n f hf hrun => by
      rcases h.flight_cases hi hf hrun with ⟨hne, hf⟩ | ⟨-, hp⟩
      · rw [hother _ hne]
        exact h.flights n f hf hrun
      · exact nomatch hpending.symm.trans hp }

end Returned

end World
end Gudra
