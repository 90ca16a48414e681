import Gudra.Batches

/-! What every call of the API promises, from what it is given. -/
namespace Gudra

open Scope

variable {P : Platform} {α : Type}

def Buffer.id (b : Buffer P) : ℕ := b.tensor.storage.id

def Buffer.atoms (b : Buffer P) : List Atom :=
  [.storage b.tensor.storage, .reservation b.reservation]

namespace Owner

def Kept : Owner P → Prop
  | halo g => g.Kept
  | field f => f.Kept
  | grid g => g.Kept

/-- The contents may be read where the flag does not forbid it; the API reads grids without asking
for their flags. -/
def Ready (g : Ghost α) : Owner P → Prop
  | halo h => g.uncertain h.storage.id = false → g.Ready h.storage.tensor.storage
  | field f => g.uncertain f.storage.id = false → g.Ready f.storage.tensor.storage
  | grid d => ∀ b ∈ d.buffers, g.Ready b.tensor.storage

end Owner

namespace Request

/-- Every owner that the call names. -/
def named : Request P α → List (Owner P)
  | .step _ source rhs _ => [.halo source, .field rhs]
  | .stepInto _ source rhs output _ | .stepIntoAsync _ source rhs output _ =>
    [.halo source, .field rhs, .field output]
  | .laplacianInto _ source output _ => [.halo source, .field output]
  | .advance grid .. | .advanceAsync grid .. | .observe grid => [.grid grid]
  | .intoHost field => [.field field]
  | _ => []

theorem named_buffers (r : Request P α) : r.named.flatMap Owner.buffers = r.buffers := by
  cases r <;> rfl

/-- The session on which the call works. -/
def session : Request P α → Session
  | .uploadHalo session .. | .uploadField session .. | .zeros session _ | .step session ..
  | .stepInto session .. | .laplacianInto session .. | .stepIntoAsync session ..
  | .doubleGrid session .. => session
  | .advance grid .. | .advanceAsync grid .. | .observe grid => grid.current.storage.session
  | .intoHost field => field.storage.session

/-- What the call validates before it does anything else. -/
def check (uncertain : ℕ → Bool) : Request P α → Except Error Unit
  | .uploadHalo _ shape data => checkLen "source" shape.haloedLen data.length
  | .uploadField _ shape data => checkLen "field" shape.interiorLen data.length
  | .zeros .. | .observe _ => .ok ()
  | .step session source rhs _ => validateStep uncertain session source rhs none
  | .stepInto session source rhs output _ | .stepIntoAsync session source rhs output _ =>
    validateStep uncertain session source rhs (some output)
  | .laplacianInto session source output _ =>
    validateFields uncertain session source none (some output)
  | .doubleGrid _ shape initial rhs => Gpu.checkGrid shape initial rhs
  | .advance grid count _ | .advanceAsync grid count _ => grid.checkCount count
  | .intoHost field => ensureReady (uncertain field.storage.id) "field"

/-- What a future owns until it finishes: the operation and its arguments. -/
def held (r : Request P α) : List Atom :=
  .reservation ⟨r.session.id, 0, false⟩ :: Frames.resources [r.entries]

variable [Scalar α]

/-- When an asynchronous call may launch, and what: the `k`-th launch of a batch runs on the grid
after `k` completed steps. -/
def permit (r : Request P α) (g₀ : Ghost α) (fs : Frames Name Atom) (g : Ghost α)
    (l : Launch α) : Prop :=
  match r with
  | .stepIntoAsync .. => fs.resources.Perm r.held ∧ g.polled = true ∧ g.stopped = false ∧ g.kernels = []
  | .advanceAsync grid count params => fs.resources.Perm r.held ∧ g.polled = true ∧ g.stopped = false ∧
    ∃ k < count, g.kernels = grid.history params k ∧ l = (grid.after k).operation params ∧
      fs = [gridFrame ⟨grid.current.storage.session.id, 0, false⟩ (grid.after k), []] ∧
      (grid.after k).At g ((grid.shape.advanced params (g₀.data grid.rhs.storage.tensor.storage))^[k]
        (g₀.data grid.current.storage.tensor.storage, g₀.data grid.next.storage.tensor.storage))
        (g₀.data grid.rhs.storage.tensor.storage)
  | _ => True

omit [Scalar α] in
/-- A batch owns everything until its last step is done or a call of the backend failed; while it
waits for a kernel it knows nothing of it. -/
def inv (r : Request P α) (fs : Frames Name Atom) (g : Ghost α) : Prop :=
  match r with
  | .advanceAsync grid count params => (∀ l ks, g.kernels ≠ .submitted l :: ks) ∧
    (g.polled = true → g.stopped = false →
      (∃ k < count, g.kernels = grid.history params k) → fs.resources.Perm r.held)
  | _ => True

def terms (r : Request P α) (g₀ : Ghost α) : Terms α where
  session := r.session.id
  shared := r.shared.map fun b => b.tensor.storage
  lent := r.lent.map fun b => b.tensor.storage
  work := r.check g₀.uncertain = .ok ()
  idle := fun fs => r.isAsync = true ∧ fs.resources.Perm r.held
  permit := r.permit g₀
  inv := r.inv

/-- The result of a successful call, from the contents of its arguments: the contents of what it
returns and of what it borrowed. -/
def Result (r : Request P α) (args : List (List α)) (o : Outcome P α)
    (stored borrowed : List (List α)) : Prop :=
  match r, o with
  | .uploadHalo _ shape data, .halo h => h.shape = shape ∧ stored = [data]
  | .uploadField _ shape data, .field f => f.shape = shape ∧ stored = [data]
  | .zeros _ shape, .field f =>
    f.shape = shape ∧ stored = [List.replicate shape.interiorLen Scalar.zero]
  | .step _ source _ params, .field out => out.shape = source.shape ∧ ∃ u f, args = [u, f] ∧
    stored = [Reference.jacobi source.shape.interior params u f] ∧ borrowed = args
  | .stepInto _ source _ _ params, .unit => ∃ u f out, args = [u, f, out] ∧
    borrowed = [u, f, Reference.jacobi source.shape.interior params u f]
  | .laplacianInto _ source _ params, .unit => ∃ u out, args = [u, out] ∧
    borrowed = [u, Reference.laplacian source.shape.interior params u]
  | .stepIntoAsync _ source rhs output params, .buffers b => b = ⟨source, rhs, output⟩ ∧
    ∃ u f out, args = [u, f, out] ∧
      stored = [u, f, Reference.jacobi source.shape.interior params u f]
  | .doubleGrid _ shape initial rhs, .grid g =>
    g.shape = shape ∧ g.completed = 0 ∧ stored = [initial, initial, rhs]
  | .advance grid count params, .grid g | .advanceAsync grid count params, .grid g =>
    g = grid.after count ∧ ∃ u v f, args = [u, v, f] ∧
      stored = [((grid.shape.advanced params f)^[count] (u, v)).1,
        ((grid.shape.advanced params f)^[count] (u, v)).2, f]
  | .observe grid, .observed g data =>
    g = grid ∧ stored = args ∧ args.head? = some data
  | .intoHost _, .host data => args = [data]
  | _, _ => False

omit [Scalar α] in
/-- A batch returns after its last step. -/
def final (r : Request P α) (ks : List (KernelEvent α)) : Prop :=
  match r with
  | .advanceAsync grid count params => ks = grid.history params count
  | _ => True

omit [Scalar α] in
/-- A batch that fails has not made its last step. -/
def unfinished (r : Request P α) (ks : List (KernelEvent α)) : Prop :=
  match r with
  | .advanceAsync grid count params => ks ≠ grid.history params count
  | _ => True

/-- What the caller guarantees. -/
structure Pre (r : Request P α) (g : Ghost α) : Prop where
  kept : ∀ o ∈ r.named, o.Kept
  ready : ∀ o ∈ r.named, o.Ready g
  apart : ((r.owned.flatMap Owner.buffers ++ r.lent).map Buffer.id).Nodup
  shared_apart : ∀ b ∈ r.shared, b.id ∉ (r.owned.flatMap Owner.buffers ++ r.lent).map Buffer.id
  kernels_eq : g.kernels = []
  polled_eq : g.polled = false
  stopped_eq : g.stopped = false

/-- What a successful call leaves. -/
structure Returns (r : Request P α) (g₀ : Ghost α) (o : Outcome P α) (fs : Frames Name Atom)
    (g : Ghost α) : Prop where
  resources : fs.resources.Perm (o.stored.flatMap Buffer.atoms)
  check : r.check g₀.uncertain = .ok ()
  kept : ∀ x ∈ o.owners, x.Kept
  session : ∀ b ∈ o.stored, b.session = r.session ∨ b ∈ r.buffers
  ready : ∀ b ∈ o.stored, g.Ready b.tensor.storage
  result : r.Result (r.buffers.map fun b => g₀.data b.tensor.storage) o
    (o.stored.map fun b => g.data b.tensor.storage)
    (r.borrowed.map fun b => g.data b.tensor.storage)
  borrowed : ∀ b ∈ r.borrowed, g.uncertain b.id = false ∧ g.Ready b.tensor.storage
  polled : r.isAsync = true → g.polled = true ∧ g.stopped = false
  final : r.final g.kernels

/-- What a failed call leaves. -/
structure Fails (r : Request P α) (g₀ : Ghost α) (e : Error) (fs : Frames Name Atom)
    (g : Ghost α) : Prop where
  resources : fs.resources = []
  /-- Before its first execution nothing changed. -/
  unchanged : g.kernels = [] → ∀ b ∈ r.borrowed,
    g.status b.id = g₀.status b.id ∧ g.uncertain b.id = g₀.uncertain b.id
  /-- A future is refused for its arguments or by admission. -/
  refused : r.isAsync = true → g.polled = false →
    r.check g₀.uncertain = .error e ∨ g.refused = some e
  unfinished : g.polled = true → r.unfinished g.kernels

def post (r : Request P α) (g₀ : Ghost α) (result : Except Error (Outcome P α))
    (fs : Frames Name Atom) (g : Ghost α) : Prop :=
  match result with
  | .ok o => r.Returns g₀ o fs g
  | .error e => r.Fails g₀ e fs g

end Request

section Calls

variable [Scalar α] {g : Ghost α} {r : Request P α}

theorem wp_code {m : Op α (Outcome P α)} (hcode : r.code = m.run)
    (h : ((r.terms g).logic P).wpx m (r.Returns g) (r.Fails g) [r.entries] g) :
    ((r.terms g).logic P).wp r.code (r.post g) [r.entries] g := by
  rw [hcode]
  refine Logic.wp_mono ?_ h
  intro result fs g' h
  cases result with
  | ok o => exact h
  | error e => exact h

omit [Scalar α] in
theorem Uploaded.ready {g' : Ghost α} {reach : List ℕ} {s : Storage} {data : List α}
    (h : Uploaded g g' reach s data) (hlen : data.length = s.len) : g'.Ready s :=
  ⟨data, h.status_eq, hlen⟩

omit [Scalar α] in
theorem halo_kept {b : Buffer P} {shape : Shape2D P} (hshape : b.shape = shape)
    (hkept : b.Kept shape.haloed) : (⟨b⟩ : HaloGrid2D P).Kept := by
  rw [HaloGrid2D.Kept, HaloGrid2D.shape, hshape]
  exact hkept

omit [Scalar α] in
theorem field_kept {b : Buffer P} {shape : Shape2D P} (hshape : b.shape = shape)
    (hkept : b.Kept shape.interior) : (⟨b⟩ : Field2D P).Kept := by
  rw [Field2D.Kept, Field2D.shape, hshape]
  exact hkept

omit [Scalar α] in
theorem final_of_sync (h : r.isAsync = false) (ks : List (KernelEvent α)) : r.final ks := by
  cases r with
  | advanceAsync => cases h
  | _ => trivial

omit [Scalar α] in
theorem unfinished_of_sync (h : r.isAsync = false) (ks : List (KernelEvent α)) :
    r.unfinished ks := by
  cases r with
  | advanceAsync => cases h
  | _ => trivial

/-- A call that borrows nothing and returns one new buffer. -/
theorem returns_new {g' : Ghost α} {o : Outcome P α} {b : Buffer P} {x : Var} {data : List α}
    {reach : List ℕ} (hborrowed : r.borrowed = []) (hasync : r.isAsync = false)
    (hstored : o.stored = [b]) (hcheck : r.check g.uncertain = .ok ())
    (hkept : ∀ x ∈ o.owners, x.Kept) (hsession : b.session = r.session)
    (hup : Uploaded g g' reach b.tensor.storage data)
    (hlen : data.length = b.tensor.storage.len)
    (hresult : r.Result (r.buffers.map fun b => g.data b.tensor.storage) o [data] []) :
    r.Returns g o [b.entries x ++ []] g' where
  resources := by
    rw [hstored]
    exact .refl _
  check := hcheck
  kept := hkept
  session := by
    rw [hstored]
    rintro y hy
    obtain rfl := List.mem_singleton.mp hy
    exact .inl hsession
  ready := by
    rw [hstored]
    rintro y hy
    obtain rfl := List.mem_singleton.mp hy
    exact hup.ready hlen
  result := by
    have hdata : [data] = o.stored.map fun b => g'.data b.tensor.storage := by
      rw [hstored, List.map_singleton, Ghost.data_of_status hup.status_eq]
    rw [hborrowed, ← hdata]
    exact hresult
  borrowed := by
    rw [hborrowed]
    exact nofun
  polled h := by
    rw [hasync] at h
    cases h
  final := final_of_sync hasync _

theorem wp_uploadHalo {session : Session} {shape : Shape2D P} {data : List α}
    (hr : r = .uploadHalo session shape data) :
    ((r.terms g).logic P).wp r.code (r.post g) [r.entries] g := by
  subst hr
  refine wp_code rfl (Logic.wpx_bind.mpr ?_)
  refine wpx_uploadHalo (fun _ _ => trivial) (fun h => checkLen_eq_ok.mpr h) rfl ?_ ?_
  · intro e g' _
    exact ⟨rfl, fun _ => nofun, nofun, fun _ => trivial⟩
  · intro b g' hlen hshape hs hkept hup
    refine returns_new rfl rfl rfl (checkLen_eq_ok.mpr hlen) ?_ hs hup ?_ ⟨hshape, rfl⟩
    · intro x hx
      obtain rfl := List.mem_singleton.mp hx
      exact halo_kept hshape hkept
    · rw [hlen, haloedLen_prod, hkept.rowMajor.len_eq]

theorem wp_uploadField {session : Session} {shape : Shape2D P} {data : List α}
    (hr : r = .uploadField session shape data) :
    ((r.terms g).logic P).wp r.code (r.post g) [r.entries] g := by
  subst hr
  refine wp_code rfl (Logic.wpx_bind.mpr ?_)
  refine wpx_uploadField (fun _ _ => trivial) (fun h => checkLen_eq_ok.mpr h) rfl ?_ ?_
  · intro e g' _
    exact ⟨rfl, fun _ => nofun, nofun, fun _ => trivial⟩
  · intro b g' hlen hshape hs hkept hup
    refine returns_new rfl rfl rfl (checkLen_eq_ok.mpr hlen) ?_ hs hup ?_ ⟨hshape, rfl⟩
    · intro x hx
      obtain rfl := List.mem_singleton.mp hx
      exact field_kept hshape hkept
    · rw [hlen, shape.interiorLen_eq, hkept.rowMajor.len_eq]
      rfl

theorem wp_zeros {session : Session} {shape : Shape2D P} (hr : r = .zeros session shape) :
    ((r.terms g).logic P).wp r.code (r.post g) [r.entries] g := by
  subst hr
  refine wp_code rfl (Logic.wpx_bind.mpr ?_)
  refine wpx_zeros (fun _ _ => trivial) rfl rfl ?_ ?_
  · intro e g' _
    exact ⟨rfl, fun _ => nofun, nofun, fun _ => trivial⟩
  · intro b g' hshape hs hkept hup
    refine returns_new rfl rfl rfl rfl ?_ hs hup ?_ ⟨hshape, rfl⟩
    · intro x hx
      obtain rfl := List.mem_singleton.mp hx
      exact field_kept hshape hkept
    · rw [List.length_replicate, shape.interiorLen_eq, hkept.rowMajor.len_eq]
      rfl

theorem mem_reach_borrowed {fs : Frames Name Atom} {b : Buffer P} (hb : b ∈ r.borrowed) :
    b.id ∈ (r.terms g).reach fs := by
  rcases List.mem_append.mp hb with hb | hb
  · exact List.mem_append_right _ (List.mem_map_of_mem (List.mem_map_of_mem hb))
  · exact mem_reach_of_exclusive (List.mem_append_right _
      (List.mem_map_of_mem (List.mem_map_of_mem hb)))

/-- A call that fails before its first execution changes nothing. -/
theorem fails_of_same {g' : Ghost α} {e : Error} {fs : Frames Name Atom}
    (hfs : fs.resources = []) (hasync : r.isAsync = false)
    (hsame : g.Same ((r.terms g).reach fs) g') : r.Fails g e fs g' where
  resources := hfs
  unchanged _ b hb :=
    ⟨hsame.status_eq _ (mem_reach_borrowed hb), hsame.uncertain_eq _ (mem_reach_borrowed hb)⟩
  refused h := by
    rw [hasync] at h
    cases h
  unfinished _ := unfinished_of_sync hasync _

omit [Scalar α] in
theorem fails_of_kernels {g' : Ghost α} {e : Error} {fs : Frames Name Atom}
    (hfs : fs.resources = []) (hasync : r.isAsync = false) (hk : g'.kernels ≠ []) :
    r.Fails g e fs g' where
  resources := hfs
  unchanged hnil := absurd hnil hk
  refused h := by
    rw [hasync] at h
    cases h
  unfinished _ := unfinished_of_sync hasync _

theorem wp_step {session : Session} {source : HaloGrid2D P} {rhs : Field2D P}
    {params : JacobiParams α} (hr : r = .step session source rhs params) (h : r.Pre g) :
    ((r.terms g).logic P).wp r.code (r.post g) [r.entries] g := by
  subst hr
  have hsource : source.Kept := h.kept (.halo source) List.mem_cons_self
  have hrhs : rhs.Kept := h.kept (.field rhs) (List.mem_cons_of_mem _ List.mem_cons_self)
  have hready : ∀ b ∈ [source.storage, rhs.storage],
      g.uncertain b.tensor.storage.id = false → g.Ready b.tensor.storage := by
    intro b hb
    rcases List.mem_cons.mp hb with rfl | hb
    · exact h.ready (.halo source) List.mem_cons_self
    · obtain rfl := List.mem_singleton.mp hb
      exact h.ready (.field rhs) (List.mem_cons_of_mem _ List.mem_cons_self)
  refine wp_code rfl (Logic.wpx_bind.mpr ?_)
  refine wpx_step ⟨fun _ _ => trivial, fun _ _ _ => trivial⟩ rfl hsource hrhs ?_
    (fun hok => hok) ?_ ?_ ?_
  · intro b hb
    exact ⟨mem_reach_borrowed hb, hready b hb⟩
  · exact fun e g' hsame => fails_of_same rfl rfl hsame
  · exact fun e g' hk => fails_of_kernels rfl rfl hk
  · intro b g' hshape hs hkept hok hup
    have haccepted := validateFields_ok hok
    have hpass : ∀ x ∈ [source.storage, rhs.storage], g.uncertain x.id = false := by
      intro x hx
      rcases List.mem_cons.mp hx with rfl | hx
      · exact haccepted.source_ok.certain
      · obtain rfl := List.mem_singleton.mp hx
        exact (haccepted.field_ok rhs List.mem_cons_self).certain
    have hreach : ∀ x ∈ [source.storage, rhs.storage],
        x.id ∈ (Request.terms (.step session source rhs params) g).reach [[]] :=
      fun x hx => mem_reach_borrowed hx
    have hne : ∀ x ∈ [source.storage, rhs.storage], x.id ≠ b.tensor.storage.id :=
      fun x hx he => hup.fresh (he ▸ hreach x hx)
    have hstatus : ∀ x ∈ [source.storage, rhs.storage],
        (g'.ran (Gpu.jacobiLaunch source rhs ⟨b⟩ params)).status x.id = g.status x.id :=
      fun x hx => (ran_status_of_ne (l := Gpu.jacobiLaunch source rhs ⟨b⟩ params) (hne x hx)).trans
        (hup.same.status_eq _ (hreach x hx))
    have hdata : ∀ x ∈ [source.storage, rhs.storage],
        (g'.status x.id).data = g.data x.tensor.storage :=
      fun x hx => congrArg Status.data (hup.same.status_eq _ (hreach x hx))
    have hout : (g'.ran (Gpu.jacobiLaunch source rhs ⟨b⟩ params)).status b.id =
        .settled (Reference.jacobi source.shape.interior params (g.data source.storage.tensor.storage)
          (g.data rhs.storage.tensor.storage)) := by
      rw [← hdata source.storage (by simp), ← hdata rhs.storage (by simp)]
      exact (ran_status (l := Gpu.jacobiLaunch source rhs ⟨b⟩ params)).trans
        (congrArg Status.settled (jacobiLaunch_commit hkept.rowMajor))
    constructor
    · exact .refl _
    · exact hok
    · intro x hx
      obtain rfl := List.mem_singleton.mp hx
      exact field_kept hshape hkept
    · intro x hx
      obtain rfl := List.mem_singleton.mp hx
      exact .inl hs
    · intro x hx
      obtain rfl := List.mem_singleton.mp hx
      refine ⟨_, hout, ?_⟩
      simp [Reference.jacobi, hkept.rowMajor.len_eq]
    · refine ⟨hshape, _, _, rfl, ?_, ?_⟩
      · exact congrArg (fun d => [d]) (Ghost.data_of_status hout)
      · exact List.map_congr_left fun x hx => congrArg Status.data (hstatus x hx)
    · intro x hx
      have hu := (ran_uncertain_of_ne (g := g') (l := Gpu.jacobiLaunch source rhs ⟨b⟩ params)
        (hne x hx)).trans (hup.same.uncertain_eq _ (hreach x hx))
      refine ⟨hu.trans (hpass x hx), ?_⟩
      obtain ⟨d, hd, hlen⟩ := hready x hx (hpass x hx)
      exact ⟨d, (hstatus x hx).trans hd, hlen⟩
    · intro hasync
      cases hasync
    · trivial

/-- A call that writes the one buffer that it borrows uniquely. -/
theorem returns_ran {l : Launch α} {output : Buffer P} {data : List α}
    (hasync : r.isAsync = false) (hcheck : r.check g.uncertain = .ok ())
    (hlent : r.lent = [output]) (hl : l.output = output.tensor)
    (hshared : ∀ b ∈ r.shared, b.id ≠ output.id ∧ g.uncertain b.id = false ∧
      g.Ready b.tensor.storage)
    (hcommit : l.commit (fun id => (g.status id).data) = data)
    (hlen : data.length = output.tensor.storage.len)
    (hresult : r.Result (r.buffers.map fun b => g.data b.tensor.storage) .unit []
      (r.shared.map (fun b => g.data b.tensor.storage) ++ [data])) :
    r.Returns g .unit [[]] (g.ran l) := by
  have hstatus : ∀ b ∈ r.shared, (g.ran l).status b.id = g.status b.id := by
    intro b hb
    refine ran_status_of_ne ?_
    rw [hl]
    exact (hshared b hb).1
  have huncertain : ∀ b ∈ r.shared, (g.ran l).uncertain b.id = g.uncertain b.id := by
    intro b hb
    refine ran_uncertain_of_ne ?_
    rw [hl]
    exact (hshared b hb).1
  have hout : (g.ran l).status output.id = .settled data := by
    have hran := ran_status (g := g) (l := l)
    rw [hl, hcommit] at hran
    exact hran
  have hcertain : (g.ran l).uncertain output.id = false := by
    have hran := ran_uncertain (g := g) (l := l)
    rw [hl] at hran
    exact hran
  refine ⟨.refl _, hcheck, nofun, nofun, nofun, ?_, ?_, ?_, final_of_sync hasync _⟩
  · have hborrowed : r.borrowed.map (fun b => (g.ran l).data b.tensor.storage) =
        r.shared.map (fun b => g.data b.tensor.storage) ++ [data] := by
      rw [Request.borrowed, hlent, List.map_append, List.map_singleton,
        Ghost.data_of_status hout]
      congr 1
      exact List.map_congr_left fun b hb => congrArg Status.data (hstatus b hb)
    rw [hborrowed]
    exact hresult
  · intro b hb
    rw [Request.borrowed, hlent] at hb
    rcases List.mem_append.mp hb with hb | hb
    · obtain ⟨-, hu, d, hd, hlen⟩ := hshared b hb
      exact ⟨(huncertain b hb).trans hu, d, (hstatus b hb).trans hd, hlen⟩
    · obtain rfl := List.mem_singleton.mp hb
      exact ⟨hcertain, data, hout, hlen⟩
  · intro h
    rw [hasync] at h
    cases h

theorem wp_stepInto {session : Session} {source : HaloGrid2D P} {rhs output : Field2D P}
    {params : JacobiParams α} (hr : r = .stepInto session source rhs output params)
    (h : r.Pre g) : ((r.terms g).logic P).wp r.code (r.post g) [r.entries] g := by
  subst hr
  have hsource : source.Kept := h.kept (.halo source) (by simp [Request.named])
  have hrhs : rhs.Kept := h.kept (.field rhs) (by simp [Request.named])
  have houtput : output.Kept := h.kept (.field output) (by simp [Request.named])
  have hready : ∀ b ∈ [source.storage, rhs.storage], b.id ≠ output.storage.id ∧
      (g.uncertain b.id = false → g.Ready b.tensor.storage) := by
    intro b hb
    refine ⟨fun he => h.shared_apart b hb (List.mem_singleton.mpr he), ?_⟩
    rcases List.mem_cons.mp hb with rfl | hb
    · exact h.ready (.halo source) (by simp [Request.named])
    · obtain rfl := List.mem_singleton.mp hb
      exact h.ready (.field rhs) (by simp [Request.named])
  have hargs : Arguments (Request.terms (.stepInto session source rhs output params) g) [[]] g
      source (some rhs) output := by
    refine ⟨hsource, ?_, houtput, ?_, List.mem_cons_self,
      h.ready (.field output) (by simp [Request.named]), ?_⟩
    · rintro field ⟨⟩
      exact hrhs
    · intro b hb
      exact ⟨mem_reach_borrowed (List.mem_append_left _ hb), hready b hb⟩
    · intro s hs _
      exact List.mem_singleton.mp hs
  refine wp_code rfl (Logic.wpx_bind.mpr ?_)
  refine wpx_stepInto ⟨fun _ _ => trivial, fun _ _ _ => trivial⟩ rfl hargs (fun hok => hok)
    ?_ ?_ ?_
  · exact fun e g' hsame => fails_of_same rfl rfl hsame
  · exact fun e g' hk => fails_of_kernels rfl rfl hk
  · intro hok
    have haccepted := validateFields_ok hok
    have hmajor := rowMajor_of_shape houtput (haccepted.shape_eq output (by simp))
    refine returns_ran rfl hok rfl rfl ?_ (jacobiLaunch_commit hmajor) ?_ ⟨_, _, _, rfl, rfl⟩
    · intro b hb
      have hcertain : g.uncertain b.id = false := by
        rcases List.mem_cons.mp hb with rfl | hb
        · exact haccepted.source_ok.certain
        · obtain rfl := List.mem_singleton.mp hb
          exact (haccepted.field_ok rhs (by simp)).certain
      exact ⟨(hready b hb).1, hcertain, (hready b hb).2 hcertain⟩
    · simp [Reference.jacobi, hmajor.len_eq]

theorem wp_laplacianInto {session : Session} {source : HaloGrid2D P} {output : Field2D P}
    {params : LaplacianParams α} (hr : r = .laplacianInto session source output params)
    (h : r.Pre g) : ((r.terms g).logic P).wp r.code (r.post g) [r.entries] g := by
  subst hr
  have hsource : source.Kept := h.kept (.halo source) (by simp [Request.named])
  have houtput : output.Kept := h.kept (.field output) (by simp [Request.named])
  have hready : ∀ b ∈ [source.storage], b.id ≠ output.storage.id ∧
      (g.uncertain b.id = false → g.Ready b.tensor.storage) := by
    intro b hb
    refine ⟨fun he => h.shared_apart b hb (List.mem_singleton.mpr he), ?_⟩
    obtain rfl := List.mem_singleton.mp hb
    exact h.ready (.halo source) (by simp [Request.named])
  have hargs : Arguments (Request.terms (.laplacianInto session source output params) g) [[]] g
      source none output := by
    refine ⟨hsource, nofun, houtput, ?_, List.mem_cons_self,
      h.ready (.field output) (by simp [Request.named]), ?_⟩
    · intro b hb
      exact ⟨mem_reach_borrowed (List.mem_append_left _ hb), hready b hb⟩
    · intro s hs _
      exact List.mem_singleton.mp hs
  refine wp_code rfl (Logic.wpx_bind.mpr ?_)
  refine wpx_laplacianInto ⟨fun _ _ => trivial, fun _ _ _ => trivial⟩ rfl hargs (fun hok => hok)
    ?_ ?_ ?_
  · exact fun e g' hsame => fails_of_same rfl rfl hsame
  · exact fun e g' hk => fails_of_kernels rfl rfl hk
  · intro hok
    have haccepted := validateFields_ok hok
    have hmajor := rowMajor_of_shape houtput (haccepted.shape_eq output (by simp))
    refine returns_ran rfl hok rfl rfl ?_ (laplacianLaunch_commit hmajor) ?_ ⟨_, _, rfl, rfl⟩
    · intro b hb
      have hcertain : g.uncertain b.id = false := by
        obtain rfl := List.mem_singleton.mp hb
        exact haccepted.source_ok.certain
      exact ⟨(hready b hb).1, hcertain, (hready b hb).2 hcertain⟩
    · simp [Reference.laplacian, hmajor.len_eq]

theorem wp_stepIntoAsync {session : Session} {source : HaloGrid2D P} {rhs output : Field2D P}
    {params : JacobiParams α} (hr : r = .stepIntoAsync session source rhs output params)
    (h : r.Pre g) : ((r.terms g).logic P).wp r.code (r.post g) [r.entries] g := by
  subst hr
  have hsource : source.Kept := h.kept (.halo source) (by simp [Request.named])
  have hrhs : rhs.Kept := h.kept (.field rhs) (by simp [Request.named])
  have houtput : output.Kept := h.kept (.field output) (by simp [Request.named])
  have hne : ∀ b ∈ [source.storage, rhs.storage], b.id ≠ output.storage.id := by
    have hapart : [source.storage.id, rhs.storage.id, output.storage.id].Nodup := h.apart
    simp only [List.nodup_cons, List.mem_cons, List.not_mem_nil, or_false, not_or] at hapart
    intro b hb
    rcases List.mem_cons.mp hb with rfl | hb
    · exact hapart.1.2
    · obtain rfl := List.mem_singleton.mp hb
      exact hapart.2.1
  have hready : ∀ b ∈ [source.storage, rhs.storage, output.storage],
      g.uncertain b.id = false → g.Ready b.tensor.storage := by
    intro b hb
    simp only [List.mem_cons, List.not_mem_nil, or_false] at hb
    rcases hb with rfl | rfl | rfl
    · exact h.ready (.halo source) (by simp [Request.named])
    · exact h.ready (.field rhs) (by simp [Request.named])
    · exact h.ready (.field output) (by simp [Request.named])
  have hargs : Arguments (Request.terms (.stepIntoAsync session source rhs output params) g)
      [Gpu.stepEntries source rhs output] g source (some rhs) output := by
    refine ⟨hsource, ?_, houtput, ?_, ?_, hready output.storage (by simp),
      fun _ hs => absurd hs List.not_mem_nil⟩
    · rintro field ⟨⟩
      exact hrhs
    · intro b hb
      refine ⟨?_, hne b hb, hready b (List.mem_append_left [output.storage] hb)⟩
      rcases List.mem_cons.mp hb with rfl | hb
      · simp [Terms.reach, Terms.exclusive, Gpu.stepEntries, Buffer.entries]
      · obtain rfl := List.mem_singleton.mp hb
        simp [Terms.reach, Terms.exclusive, Gpu.stepEntries, Buffer.entries]
    · simp [Terms.exclusive, Gpu.stepEntries, Buffer.entries]
  refine wp_code rfl (Logic.wpx_bind.mpr ?_)
  refine wpx_stepIntoAsync (fun _ _ => trivial) rfl rfl h.polled_eq hargs (fun hok => hok) rfl
    (fun _ hfs => ⟨rfl, hfs⟩) ?_ ?_ ?_ ?_
  · intro fs g' hfs hp hs hk
    exact ⟨hfs, hp, hs.trans h.stopped_eq, hk.trans h.kernels_eq⟩
  · intro e g' hp hrefused
    exact ⟨rfl, fun _ _ hb => absurd hb List.not_mem_nil, fun _ _ => hrefused, fun _ => trivial⟩
  · intro e g' hp
    refine ⟨rfl, fun _ _ hb => absurd hb List.not_mem_nil, fun _ hp' => ?_, fun _ => trivial⟩
    rw [hp] at hp'
    cases hp'
  · intro hok
    have haccepted := validateFields_ok hok
    have hmajor := rowMajor_of_shape houtput (haccepted.shape_eq output (by simp))
    have hcertain : ∀ b ∈ [source.storage, rhs.storage], g.uncertain b.id = false := by
      intro b hb
      rcases List.mem_cons.mp hb with rfl | hb
      · exact haccepted.source_ok.certain
      · obtain rfl := List.mem_singleton.mp hb
        exact (haccepted.field_ok rhs (by simp)).certain
    have hstatus : ∀ b ∈ [source.storage, rhs.storage], (Ghost.succeed { g with polled := true }
        (Gpu.jacobiLaunch source rhs output params)).status b.id = g.status b.id :=
      fun b hb => Function.update_of_ne (hne b hb) _ _
    have hout : (Ghost.succeed { g with polled := true }
        (Gpu.jacobiLaunch source rhs output params)).status output.storage.id =
        .settled (Reference.jacobi source.shape.interior params
          (g.data source.storage.tensor.storage) (g.data rhs.storage.tensor.storage)) :=
      (Function.update_self ..).trans (congrArg Status.settled (jacobiLaunch_commit hmajor))
    refine ⟨.refl _, hok, ?_, fun b hb => .inr hb, ?_, ⟨rfl, _, _, _, rfl, ?_⟩,
      fun _ hb => absurd hb List.not_mem_nil, fun _ => ⟨rfl, h.stopped_eq⟩, trivial⟩
    · intro x hx
      exact h.kept x hx
    · intro b hb
      have hb : b ∈ [source.storage, rhs.storage] ++ [output.storage] := hb
      rcases List.mem_append.mp hb with hb | hb
      · obtain ⟨d, hd, hlen⟩ := hready b (List.mem_append_left [output.storage] hb) (hcertain b hb)
        exact ⟨d, (hstatus b hb).trans hd, hlen⟩
      · obtain rfl := List.mem_singleton.mp hb
        exact ⟨_, hout, by simp [Reference.jacobi, hmajor.len_eq]⟩
    · have hs := hstatus source.storage (by simp)
      have hf := hstatus rhs.storage (by simp)
      exact congrArg₂ List.cons (congrArg Status.data hs) (congrArg₂ List.cons
        (congrArg Status.data hf) (congrArg (fun d => [d]) (Ghost.data_of_status hout)))

section Grids

variable {grid : DoubleGrid P} {count : ℕ} {params : JacobiParams α}

omit [Scalar α] in
theorem mem_grid_buffers {b : Buffer P} : b ∈ grid.buffers ↔
    b = grid.current.storage ∨ b = grid.next.storage ∨ b = grid.rhs.storage := by
  simp [DoubleGrid.buffers]

omit [Scalar α] in
theorem DoubleGrid.At.ready {x : List α × List α} {f : List α} (hat : grid.At g x f) :
    ∀ b ∈ grid.buffers, g.Ready b.tensor.storage := by
  intro b hb
  rcases mem_grid_buffers.mp hb with rfl | rfl | rfl
  · exact ⟨_, hat.current_eq, hat.current_len⟩
  · exact ⟨_, hat.next_eq, hat.next_len⟩
  · exact ⟨_, hat.rhs_eq, hat.rhs_len⟩

omit [Scalar α] in
theorem DoubleGrid.At.data_eq {x : List α × List α} {f : List α} (hat : grid.At g x f) :
    grid.buffers.map (fun b => g.data b.tensor.storage) = [x.1, x.2, f] := by
  simp only [DoubleGrid.buffers, List.map_cons, List.map_nil, Ghost.data_of_status hat.current_eq,
    Ghost.data_of_status hat.next_eq, Ghost.data_of_status hat.rhs_eq]

omit [Scalar α] in
/-- The contents of the grid that a call is given. -/
theorem grid_at (hready : ∀ b ∈ grid.buffers, g.Ready b.tensor.storage) :
    grid.At g (g.data grid.current.storage.tensor.storage, g.data grid.next.storage.tensor.storage)
      (g.data grid.rhs.storage.tensor.storage) := by
  obtain ⟨u, hu, hulen⟩ := hready grid.current.storage (mem_grid_buffers.mpr (.inl rfl))
  obtain ⟨v, hv, hvlen⟩ := hready grid.next.storage (mem_grid_buffers.mpr (.inr (.inl rfl)))
  obtain ⟨f, hf, hflen⟩ := hready grid.rhs.storage (mem_grid_buffers.mpr (.inr (.inr rfl)))
  rw [Ghost.data_of_status hu, Ghost.data_of_status hv, Ghost.data_of_status hf]
  exact ⟨hu, hulen, hv, hvlen, hf, hflen⟩

/-- A call that returns a grid. -/
theorem returns_grid {g' : Ghost α} {o : Outcome P α} {x : List α × List α} {f : List α}
    (howners : o.owners = [.grid grid]) (hborrowed : r.borrowed = [])
    (hcheck : r.check g.uncertain = .ok ()) (hkept : grid.Kept)
    (hsession : grid.current.storage.session = r.session) (hat : grid.At g' x f)
    (hpolled : r.isAsync = true → g'.polled = true ∧ g'.stopped = false) (hfinal : r.final g'.kernels)
    (hresult : r.Result (r.buffers.map fun b => g.data b.tensor.storage) o [x.1, x.2, f] []) :
    r.Returns g o [grid.entries] g' := by
  have hstored : o.stored = grid.buffers := by
    rw [Outcome.stored, howners]
    rfl
  refine ⟨?_, hcheck, ?_, ?_, ?_, ?_, ?_, hpolled, hfinal⟩
  · rw [hstored]
    exact .refl _
  · rw [howners]
    intro y hy
    obtain rfl := List.mem_singleton.mp hy
    exact hkept
  · rw [hstored]
    intro b hb
    rcases mem_grid_buffers.mp hb with rfl | rfl | rfl
    · exact .inl hsession
    · exact .inl (hkept.next_session.trans hsession)
    · exact .inl (hkept.rhs_session.trans hsession)
  · rw [hstored]
    exact hat.ready
  · rw [hstored, hborrowed, hat.data_eq]
    exact hresult
  · rw [hborrowed]
    exact nofun

omit [Scalar α] in
theorem checkGrid_ok {shape : Shape2D P} {initial rhs : List α}
    (h : Gpu.checkGrid shape initial rhs = .ok ()) :
    initial.length = shape.haloedLen ∧ rhs.length = shape.interiorLen := by
  obtain ⟨_, hinitial, h⟩ := bind_eq_ok.mp h
  obtain ⟨_, hrhs, -⟩ := bind_eq_ok.mp h
  exact ⟨checkLen_eq_ok.mp hinitial, checkLen_eq_ok.mp hrhs⟩

theorem wp_doubleGrid {session : Session} {shape : Shape2D P} {initial rhs : List α}
    (hr : r = .doubleGrid session shape initial rhs) :
    ((r.terms g).logic P).wp r.code (r.post g) [r.entries] g := by
  subst hr
  refine wp_code rfl (Logic.wpx_bind.mpr ?_)
  refine wpx_doubleGrid (fun _ _ => trivial) rfl (fun hok => hok) ?_ ?_
  · exact fun e g' hsame => fails_of_same rfl rfl hsame
  · intro current next forcing g' hok hsame hcurrent hnext hforcing hapart
    obtain ⟨hinitial, hrhs⟩ := checkGrid_ok hok
    have hlen := hinitial.trans (haloedLen_prod shape)
    have hkept : (⟨⟨current⟩, ⟨next⟩, ⟨forcing⟩, 0⟩ : DoubleGrid P).Kept := by
      constructor
      · exact halo_kept hcurrent.shape_eq hcurrent.kept
      · exact halo_kept hnext.shape_eq hnext.kept
      · exact field_kept hforcing.shape_eq hforcing.kept
      · exact hnext.shape_eq.trans hcurrent.shape_eq.symm
      · exact hforcing.shape_eq.trans hcurrent.shape_eq.symm
      · exact hnext.session_eq.trans hcurrent.session_eq.symm
      · exact hforcing.session_eq.trans hcurrent.session_eq.symm
      · exact hapart
      · exact Nat.zero_le _
    have hat : (⟨⟨current⟩, ⟨next⟩, ⟨forcing⟩, 0⟩ : DoubleGrid P).At g' (initial, initial) rhs := by
      refine ⟨hcurrent.status_eq, ?_, hnext.status_eq, ?_, hforcing.status_eq, ?_⟩
      · exact hlen.trans hcurrent.kept.rowMajor.len_eq.symm
      · exact hlen.trans hnext.kept.rowMajor.len_eq.symm
      · exact (hrhs.trans shape.interiorLen_eq).trans hforcing.kept.rowMajor.len_eq.symm
    exact returns_grid rfl rfl hok hkept hcurrent.session_eq hat nofun trivial
      ⟨hcurrent.shape_eq, rfl, rfl⟩

theorem wp_advance (hr : r = .advance grid count params) (h : r.Pre g) :
    ((r.terms g).logic P).wp r.code (r.post g) [r.entries] g := by
  subst hr
  have hkept : grid.Kept := h.kept (.grid grid) List.mem_cons_self
  have hat := grid_at (h.ready (.grid grid) List.mem_cons_self)
  refine wp_code rfl (Logic.wpx_bind.mpr ?_)
  refine wpx_advance ⟨fun _ _ => trivial, fun _ _ _ => trivial⟩ rfl hkept hat rfl
    (fun hok => hok) ?_ ?_
  · exact fun e g' => ⟨rfl, fun _ => nofun, nofun, fun _ => trivial⟩
  · intro g' hok hat'
    obtain ⟨hkept', -, hsession⟩ := hkept.after (checkCount_eq_ok.mp hok)
    exact returns_grid rfl rfl hok hkept' hsession hat' nofun trivial ⟨rfl, _, _, _, rfl, rfl⟩

theorem wp_advanceAsync (hr : r = .advanceAsync grid count params) (h : r.Pre g) :
    ((r.terms g).logic P).wp r.code (r.post g) [r.entries] g := by
  subst hr
  have hkept : grid.Kept := h.kept (.grid grid) List.mem_cons_self
  have hat := grid_at (h.ready (.grid grid) List.mem_cons_self)
  refine wp_code rfl (Logic.wpx_bind.mpr ?_)
  refine wpx_advanceAsync rfl hkept hat rfl (fun hok => hok) h.polled_eq h.stopped_eq h.kernels_eq rfl
    ?_ ?_ ?_ ?_ ?_ ?_ ?_ ?_ ?_ ?_
  · exact fun _ hfs => ⟨rfl, hfs⟩
  · intro fs j g' hfs hframes hj hp hs hk hat'
    exact ⟨hfs, hp, hs, j, hj, hk, rfl, hframes, hat'⟩
  · intro fs j g' hfs hk
    exact ⟨fun l ks hne => history_ne_submitted (hk.symm.trans hne), fun _ _ _ => hfs⟩
  · intro fs g' hp hk
    refine ⟨fun l ks hne => (nomatch hk.symm.trans hne), fun hp' => ?_⟩
    rw [hp] at hp'
    cases hp'
  · intro fs j g' hs hk
    refine ⟨fun l ks hne => history_ne_submitted (hk.symm.trans hne), fun _ hs' => ?_⟩
    rw [hs] at hs'
    cases hs'
  · intro fs g' l ks hk
    refine ⟨fun l' ks' hne => (nomatch hk.symm.trans hne), ?_⟩
    rintro _ _ ⟨k, -, hk'⟩
    exact absurd (hk'.symm.trans hk) history_ne_failed
  · intro fs g' hk
    refine ⟨fun l ks hne => history_ne_submitted (hk.symm.trans hne), ?_⟩
    rintro _ _ ⟨k, hlt, hk'⟩
    have hcount := history_injective (hk'.symm.trans hk)
    omega
  · intro e g' hp hrefused
    refine ⟨rfl, fun _ => nofun, fun _ _ => hrefused, fun hp' => ?_⟩
    rw [hp] at hp'
    cases hp'
  · intro e g' hp hne
    refine ⟨rfl, fun _ => nofun, fun _ hp' => ?_, fun _ => hne⟩
    rw [hp] at hp'
    cases hp'
  · intro g' hok hp hs hk hat'
    obtain ⟨hkept', -, hsession⟩ := hkept.after (checkCount_eq_ok.mp hok)
    exact returns_grid rfl rfl hok hkept' hsession hat' (fun _ => ⟨hp, hs⟩) hk
      ⟨rfl, _, _, _, rfl, rfl⟩

theorem wp_observe (hr : r = .observe grid) (h : r.Pre g) :
    ((r.terms g).logic P).wp r.code (r.post g) [r.entries] g := by
  subst hr
  have hkept : grid.Kept := h.kept (.grid grid) List.mem_cons_self
  have hat := grid_at (h.ready (.grid grid) List.mem_cons_self)
  refine wp_code rfl (Logic.wpx_bind.mpr ?_)
  refine wpx_observe (fun _ _ => trivial) rfl hat rfl ?_ ?_
  · exact fun e g' => ⟨rfl, fun _ => nofun, nofun, fun _ => trivial⟩
  · exact returns_grid rfl rfl rfl hkept rfl hat nofun trivial ⟨rfl, rfl, rfl⟩

end Grids

theorem wp_intoHost {field : Field2D P} (hr : r = .intoHost field) (h : r.Pre g) :
    ((r.terms g).logic P).wp r.code (r.post g) [r.entries] g := by
  subst hr
  have hready : g.uncertain field.storage.id = false → g.Ready field.storage.tensor.storage :=
    h.ready (.field field) List.mem_cons_self
  refine wp_code rfl (Logic.wpx_bind.mpr ?_)
  refine wpx_intoHost (fun _ _ => trivial) (fun hu => ensureReady_eq_ok.mpr hu) hready rfl ?_ ?_
  · exact fun e g' => ⟨rfl, fun _ => nofun, nofun, fun _ => trivial⟩
  · intro hu
    exact ⟨.refl _, ensureReady_eq_ok.mpr hu, nofun, nofun, nofun, rfl, nofun, nofun,
      trivial⟩

/-- Every call keeps its promises. -/
theorem wp_request (h : r.Pre g) :
    ((r.terms g).logic P).wp r.code (r.post g) [r.entries] g := by
  cases hr : r with
  | uploadHalo => exact hr ▸ wp_uploadHalo hr
  | uploadField => exact hr ▸ wp_uploadField hr
  | zeros => exact hr ▸ wp_zeros hr
  | step => exact hr ▸ wp_step hr h
  | stepInto => exact hr ▸ wp_stepInto hr h
  | laplacianInto => exact hr ▸ wp_laplacianInto hr h
  | stepIntoAsync => exact hr ▸ wp_stepIntoAsync hr h
  | doubleGrid => exact hr ▸ wp_doubleGrid hr
  | advance => exact hr ▸ wp_advance hr h
  | advanceAsync => exact hr ▸ wp_advanceAsync hr h
  | observe => exact hr ▸ wp_observe hr h
  | intoHost => exact hr ▸ wp_intoHost hr h

end Calls
end Gudra
