import Gudra.Logic
import Gudra.Validation

/-! One specification for each operation of the facade. -/
namespace Gudra

open Scope

variable {P : Platform} {α : Type}

/-- A fresh allocation with settled contents. -/
structure Uploaded (g g' : Ghost α) (reach : List ℕ) (s : Storage) (data : List α) : Prop where
  same : g.Same reach g'
  fresh : s.id ∉ reach
  status_eq : g'.status s.id = .settled data
  uncertain_eq : g'.uncertain s.id = false

/-- Terms that restrict neither instants nor launches. -/
structure Terms.Free (C : Terms α) : Prop where
  inv : ∀ fs g, C.inv fs g
  permit : ∀ fs g l, C.permit fs g l

/-- An extent within the limits of a validated shape. -/
structure Bounded (P : Platform) (extent : ℕ × ℕ) : Prop where
  fst_le : extent.1 ≤ i32Max
  snd_le : extent.2 ≤ i32Max
  len_le : extent.1 * extent.2 ≤ i32Max
  bytes_le : extent.1 * extent.2 * sizeOfF32 ≤ P.usizeMax

theorem bounded_haloed (shape : Shape2D P) : Bounded P shape.haloed := by
  have hle := shape.haloedLen_le
  have hh := shape.haloed_height_le
  have hw := shape.haloed_width_le
  have hlen := shape.haloedLen_eq
  have hbytes := shape.valid.haloedBytes_le
  rw [shape.haloedBytes_eq, hlen] at hbytes
  rw [shape.haloed_eq]
  exact ⟨by simp only; omega, by simp only; omega, by simp only; omega,
    hbytes.trans (isizeMax_le_usizeMax P)⟩

theorem bounded_interior (shape : Shape2D P) : Bounded P shape.interior := by
  obtain ⟨h₁, h₂, hlen, hbytes⟩ := bounded_haloed shape
  rw [shape.haloed_eq] at h₁ h₂ hlen hbytes
  rw [shape.interior_eq]
  have hmul : shape.height * shape.width ≤ (shape.height + 2) * (shape.width + 2) :=
    Nat.mul_le_mul (by omega) (by omega)
  refine ⟨by simp only at *; omega, by simp only at *; omega, hmul.trans hlen, ?_⟩
  exact (Nat.mul_le_mul_right _ hmul).trans hbytes

variable [Scalar α] {C : Terms α} {f : Frame Name Atom} {rest : Frames Name Atom} {g : Ghost α}
  {session : Session} {shape : Shape2D P} {data : List α} {extent : ℕ × ℕ}
  {X : Error → Frames Name Atom → Ghost α → Prop}

theorem wpx_uploadReserved (hinv : ∀ fs g, C.inv fs g) (hwork : C.work)
    (hsession : session.id = C.session) (hlen : data.length = extent.1 * extent.2)
    (hextent : Bounded P extent)
    {r : Reservation} (hr : r = ⟨session.id, extent.1 * extent.2 * sizeOfF32, true⟩)
    {x y : Var} {fs : Frames Name Atom} {Q : Buffer P → Frames Name Atom → Ghost α → Prop}
    (hparams : fs.enter [(.charge x, .charge .reservation)] =
      [(.charge .reservation, .reservation r)] :: f :: rest)
    (hX : ∀ e g', g.Same (C.reach (f :: rest)) g' → X e (f :: rest) g')
    (hQ : ∀ b g', b.shape = shape → b.session = session → b.Kept extent →
      Uploaded g g' (C.reach (f :: rest)) b.tensor.storage data →
      Q b ((b.entries y ++ f) :: rest) g') :
    (C.logic P).wpx (Gpu.uploadReserved session shape data extent r x y) Q X fs g := by
  have hdrop := logic_dropAll P hinv
  rw [Gpu.uploadReserved, Logic.wpx_scope, hparams]
  simp only [Logic.wpx_bind, wpx_operation, wpx_bindDevice, wpx_upload, wpx_attempt, logic_inv,
    hinv, hdrop, true_and, hwork, eq_true hsession, Frames.push, List.tail_cons]
  have hsame := Ghost.Same.refl (C.reach (f :: rest)) g
  refine ⟨?_, ?_, ?_, ?_⟩
  · intro e
    exact hX e (g.refuse e) (hsame.refuse e)
  · intro e
    exact hX _ g.stop hsame.stop
  · intro e
    exact hX _ g.stop hsame.stop
  · intro s hdevice hs hsize hfresh
    have hfresh : s.id ∉ C.reach (f :: rest) := hfresh
    have hsame := hsame.store hfresh data
    refine ⟨?_, fun e => hX _ _ hsame⟩
    have hsize' : extent.1 * extent.2 = s.len := (hsize.trans hlen).symm
    have hbound : s.len ≤ i32Max := hsize'.symm.trans_le hextent.len_le
    rw [Tensor.reshape_uploaded hsize' hextent.fst_le hextent.snd_le hbound]
    refine hQ ⟨Tensor.ofRows s extent, shape, session, r⟩ _ rfl rfl ?_ ?_
    · exact ⟨Tensor.rowMajor_ofRows hsize', hdevice, hs, hr⟩
    · exact ⟨hsame, hfresh, Function.update_self .., Function.update_self ..⟩

theorem wpx_uploadBuffer (hinv : ∀ fs g, C.inv fs g) (hwork : C.work)
    (hsession : session.id = C.session) (hlen : data.length = extent.1 * extent.2)
    (hextent : Bounded P extent) {y : Var} {Q : Buffer P → Frames Name Atom → Ghost α → Prop}
    (hX : ∀ e g', g.Same (C.reach (f :: rest)) g' → X e (f :: rest) g')
    (hQ : ∀ b g', b.shape = shape → b.session = session → b.Kept extent →
      Uploaded g g' (C.reach (f :: rest)) b.tensor.storage data →
      Q b ((b.entries y ++ f) :: rest) g') :
    (C.logic P).wpx (Gpu.upload session shape data extent y) Q X (f :: rest) g := by
  have hdrop := logic_dropAll P hinv
  have hbytes : P.checkedMul data.length sizeOfF32 = some (extent.1 * extent.2 * sizeOfF32) :=
    checkedMul_eq (by rw [hlen]) hextent.bytes_le
  rw [Gpu.upload, Logic.wpx_scope]
  simp only [Logic.wpx_bind, wpx_checked hbytes, wpx_buffer, logic_inv, hinv, hdrop, true_and,
    eq_true hsession]
  have hsame := Ghost.Same.refl (C.reach (f :: rest)) g
  refine ⟨fun e => hX e _ (hsame.refuse e), ?_⟩
  refine wpx_uploadReserved hinv hwork hsession hlen hextent rfl rfl ?_ ?_
  · intro e g' h
    exact hX e g' h
  · intro b g' hshape hs hkept hup
    exact hQ b g' hshape hs hkept hup

theorem haloedLen_prod (shape : Shape2D P) :
    shape.haloedLen = shape.haloed.1 * shape.haloed.2 := by
  rw [shape.haloedLen_eq, shape.haloed_eq]

theorem wpx_uploadHalo (hinv : ∀ fs g, C.inv fs g)
    (hwork : data.length = shape.haloedLen → C.work) (hsession : session.id = C.session)
    {Q : HaloGrid2D P → Frames Name Atom → Ghost α → Prop}
    (hX : ∀ e g', g.Same (C.reach (f :: rest)) g' → X e (f :: rest) g')
    (hQ : ∀ b g', data.length = shape.haloedLen → b.shape = shape → b.session = session →
      b.Kept shape.haloed → Uploaded g g' (C.reach (f :: rest)) b.tensor.storage data →
      Q ⟨b⟩ ((b.entries .source ++ f) :: rest) g') :
    (C.logic P).wpx (Gpu.uploadHalo session shape data) Q X (f :: rest) g := by
  rw [Gpu.uploadHalo, Logic.wpx_bind, wpx_ofExcept]
  refine ⟨?_, fun e _ => hX e g (.refl _ g)⟩
  intro _ hok
  have hlen := checkLen_eq_ok.mp hok
  rw [Logic.wpx_bind]
  exact wpx_uploadBuffer hinv (hwork hlen) hsession (hlen.trans (haloedLen_prod shape))
    (bounded_haloed shape) hX fun b g' => hQ b g' hlen

theorem wpx_uploadField (hinv : ∀ fs g, C.inv fs g)
    (hwork : data.length = shape.interiorLen → C.work) (hsession : session.id = C.session)
    {Q : Field2D P → Frames Name Atom → Ghost α → Prop}
    (hX : ∀ e g', g.Same (C.reach (f :: rest)) g' → X e (f :: rest) g')
    (hQ : ∀ b g', data.length = shape.interiorLen → b.shape = shape → b.session = session →
      b.Kept shape.interior → Uploaded g g' (C.reach (f :: rest)) b.tensor.storage data →
      Q ⟨b⟩ ((b.entries .rhs ++ f) :: rest) g') :
    (C.logic P).wpx (Gpu.uploadField session shape data) Q X (f :: rest) g := by
  rw [Gpu.uploadField, Logic.wpx_bind, wpx_ofExcept]
  refine ⟨?_, fun e _ => hX e g (.refl _ g)⟩
  intro _ hok
  have hlen := checkLen_eq_ok.mp hok
  rw [Logic.wpx_bind]
  exact wpx_uploadBuffer hinv (hwork hlen) hsession (hlen.trans shape.interiorLen_eq)
    (bounded_interior shape) hX fun b g' => hQ b g' hlen

theorem wpx_zeros (hinv : ∀ fs g, C.inv fs g) (hwork : C.work)
    (hsession : session.id = C.session) {y : Var}
    {Q : Field2D P → Frames Name Atom → Ghost α → Prop}
    (hX : ∀ e g', g.Same (C.reach (f :: rest)) g' → X e (f :: rest) g')
    (hQ : ∀ b g', b.shape = shape → b.session = session → b.Kept shape.interior →
      Uploaded g g' (C.reach (f :: rest)) b.tensor.storage
        (List.replicate shape.interiorLen Scalar.zero) →
      Q ⟨b⟩ ((b.entries y ++ f) :: rest) g') :
    (C.logic P).wpx (Gpu.zeros session shape y) Q X (f :: rest) g := by
  have hdrop := logic_dropAll P hinv
  have hbytes : shape.interiorBytes = shape.interior.1 * shape.interior.2 * sizeOfF32 := by
    rw [shape.interiorBytes_eq, shape.interiorLen_eq]
    rfl
  rw [Gpu.zeros, Logic.wpx_scope]
  simp only [Logic.wpx_bind, wpx_buffer, logic_inv, hinv, hdrop, true_and, eq_true hsession]
  have hsame := Ghost.Same.refl (C.reach (f :: rest)) g
  refine ⟨fun e => hX e _ (hsame.refuse e), ?_⟩
  refine wpx_uploadReserved hinv hwork hsession ?_ (bounded_interior shape) (by rw [hbytes]) rfl
    ?_ ?_
  · rw [List.length_replicate, shape.interiorLen_eq]
    rfl
  · intro e g' h
    exact hX e g' h
  · intro b g' hshape hs hkept hup
    exact hQ b g' hshape hs hkept hup

/-! ### Launches on validated arguments -/

/-- The arguments of a launch, before they are validated. -/
structure Arguments (C : Terms α) (fs : Frames Name Atom) (g : Ghost α) (source : HaloGrid2D P)
    (rhs : Option (Field2D P)) (output : Field2D P) : Prop where
  source_kept : source.Kept
  rhs_kept : ∀ f ∈ rhs, f.Kept
  output_kept : output.Kept
  input : ∀ b ∈ source.storage :: rhs.toList.map (·.storage),
    b.tensor.storage.id ∈ C.reach fs ∧ b.tensor.storage.id ≠ output.storage.tensor.storage.id ∧
      (g.uncertain b.tensor.storage.id = false → g.Ready b.tensor.storage)
  output_mem : output.storage.tensor.storage.id ∈ C.exclusive fs
  output_ready : g.uncertain output.storage.tensor.storage.id = false →
    g.Ready output.storage.tensor.storage
  lent : ∀ s ∈ C.lent, s.id = output.storage.tensor.storage.id → s = output.storage.tensor.storage

section Launches

variable {fs : Frames Name Atom} {source : HaloGrid2D P} {rhs : Option (Field2D P)}
  {output : Field2D P} {l : Launch α} {label : String}

omit [Scalar α] in
theorem mem_reach_of_exclusive {id : ℕ} (h : id ∈ C.exclusive fs) : id ∈ C.reach fs :=
  List.mem_append_left _ h

omit [Scalar α] in
theorem mem_reach_congr {fs' : Frames Name Atom} {id : ℕ}
    (hids : (ids fs'.resources).Perm (ids fs.resources)) :
    id ∈ C.reach fs' ↔ id ∈ C.reach fs := by
  simp only [Terms.reach, Terms.exclusive, List.mem_append, hids.mem_iff]

omit [Scalar α] in
/-- Frames that own the same allocations are as good. -/
theorem Arguments.congr {fs' : Frames Name Atom} (h : Arguments C fs g source rhs output)
    (hids : (ids fs'.resources).Perm (ids fs.resources)) :
    Arguments C fs' g source rhs output := by
  obtain ⟨hs, hr, ho, hin, hmem, hready, hlent⟩ := h
  refine ⟨hs, hr, ho, ?_, ?_, hready, hlent⟩
  · intro b hb
    obtain ⟨hreach, hrest⟩ := hin b hb
    exact ⟨(mem_reach_congr hids).mpr hreach, hrest⟩
  · rw [Terms.exclusive, List.mem_append, hids.mem_iff, ← List.mem_append]
    exact hmem

omit [Scalar α] in
theorem launchable_of_accepted {g' : Ghost α} (h : Arguments C fs g source rhs output)
    (hok : Accepted g.uncertain session source (rhs.toList ++ [output])) (hwork : C.work)
    (hsession : session.id = C.session) (hstatus : g'.status = g.status)
    (huncertain : output.storage.tensor.storage.id ∈ C.lent.map Storage.id →
      g'.uncertain output.storage.tensor.storage.id = true)
    (hpermit : C.permit fs g' l) (hl : l.WellFormed source.shape)
    (hinputs : ∀ t ∈ l.inputs, t ∈ source.storage.tensor :: rhs.toList.map (·.storage.tensor))
    (hout : l.output = output.storage.tensor) : C.Launchable P fs g' session.id l := by
  have hmem : output ∈ rhs.toList ++ [output] := List.mem_append_right _ List.mem_cons_self
  have hready : ∀ s : Storage, g.Ready s → g'.Ready s := by
    rintro s ⟨data, hdata, hlen⟩
    exact ⟨data, by rw [hstatus, hdata], hlen⟩
  have hbuffer : ∀ b : Buffer P, b ∈ source.storage :: rhs.toList.map (·.storage) →
      Passes g.uncertain session b → b.tensor.storage.session = b.session.id →
      b.tensor.storage.id ∈ C.reach fs ∧ b.tensor.storage.session = session.id ∧
        g'.Ready b.tensor.storage := by
    intro b hb hpass hs
    obtain ⟨hreach, -, hr⟩ := h.input b hb
    exact ⟨hreach, hs.trans hpass.session_eq.symm, hready _ (hr hpass.certain)⟩
  refine ⟨hwork, hsession, ⟨_, hl⟩, ?_, ?_, ?_, ?_, ?_, hpermit⟩
  · intro t ht
    rcases List.mem_cons.mp (hinputs t ht) with rfl | ht
    · exact hbuffer _ List.mem_cons_self hok.source_ok h.source_kept.session_eq
    · obtain ⟨f, hf, rfl⟩ := List.mem_map.mp ht
      refine hbuffer f.storage (List.mem_cons_of_mem _ (List.mem_map_of_mem hf)) ?_ ?_
      · exact hok.field_ok f (List.mem_append_left _ hf)
      · exact (h.rhs_kept f (Option.mem_toList.mp hf)).session_eq
  · rw [hout]
    exact h.output_mem
  · rw [hout, h.output_kept.session_eq]
    exact (hok.field_ok output hmem).session_eq.symm
  · rw [hout]
    exact hready _ (h.output_ready (hok.field_ok output hmem).certain)
  · rw [hout]
    exact huncertain

/-- What `Completion::run` of a launch leaves when it succeeds. -/
def Ghost.ran (g : Ghost α) (l : Launch α) : Ghost α :=
  ((g.setCompletion l.output.storage.id true).succeed l).setCompletion l.output.storage.id false

theorem ran_status : (g.ran l).status l.output.storage.id =
    .settled (l.commit fun id => (g.status id).data) := Function.update_self ..

theorem ran_status_of_ne {id : ℕ} (h : id ≠ l.output.storage.id) :
    (g.ran l).status id = g.status id := Function.update_of_ne h _ _

theorem ran_uncertain : (g.ran l).uncertain l.output.storage.id = false := Function.update_self ..

theorem ran_uncertain_of_ne {id : ℕ} (h : id ≠ l.output.storage.id) :
    (g.ran l).uncertain id = g.uncertain id :=
  (Function.update_of_ne h _ _).trans (Function.update_of_ne h _ _)

theorem wpx_run (hfree : C.Free) {Q : Unit → Frames Name Atom → Ghost α → Prop}
    (hl : C.Launchable P fs (g.setCompletion l.output.storage.id true) session.id l)
    (hlent : ∀ s ∈ C.lent, s.id = l.output.storage.id → s = l.output.storage)
    (hX : ∀ e g', g'.kernels ≠ [] → X e fs g') (hQ : Q () fs (g.ran l)) :
    (C.logic P).wpx (Completion.run l.output.storage.id (Op.execute label session l)) Q X fs g := by
  rw [Completion.run]
  simp only [Logic.wpx_bind, wpx_setCompletion, wpx_execute, hfree.inv, true_and]
  obtain ⟨data, hdata, -⟩ := hl.output_ready
  refine ⟨hl.output_mem, ⟨data, hdata⟩, (by simp), hl,
    ⟨hl.output_mem, ⟨_, Function.update_self ..⟩, ?_, hQ⟩, ?_⟩
  · intro _ s hs hid
    obtain rfl := hlent s hs hid
    obtain ⟨shape, hwell⟩ := hl.wellFormed
    exact ⟨_, Function.update_self .., hwell.length_commit⟩
  · intro e ks hks
    refine hX _ _ ?_
    intro hnil
    have hks : [] ∈ KernelEvent.failures l g.kernels := hnil ▸ hks
    simp [KernelEvent.failures] at hks

theorem wpx_views (hinv : ∀ fs g, C.inv fs g) (hkept : source.Kept)
    {Q : ReadViews → Frames Name Atom → Ghost α → Prop} (hX : ∀ e, X e fs g)
    (hQ : Q (viewsOf source.shape source.storage.tensor) fs g) :
    (C.logic P).wpx (Gpu.views source) Q X fs g := by
  rw [Gpu.views, Logic.wpx_bind, wpx_attempt]
  refine ⟨⟨hinv _ _, ?_⟩, fun e => ⟨hinv _ _, hX e⟩⟩
  rw [wpx_ofFallible (directionalViews_eq hkept.rowMajor)]
  exact hQ

/-- The code that `step_into` and `laplacian_into` share. -/
theorem wpx_launchInto (hfree : C.Free) (hsession : session.id = C.session)
    (hargs : Arguments C (f :: rest) g source rhs output)
    (hwork : validateFields g.uncertain session source rhs (some output) = .ok () → C.work)
    {launch : ReadViews → Launch α} (hl : l = launch (viewsOf source.shape source.storage.tensor))
    (hwell : Accepted g.uncertain session source (rhs.toList ++ [output]) →
      l.WellFormed source.shape)
    (hinputs : ∀ t ∈ l.inputs, t ∈ source.storage.tensor :: rhs.toList.map (·.storage.tensor))
    (hout : l.output = output.storage.tensor) {Q : Unit → Frames Name Atom → Ghost α → Prop}
    (hX : ∀ e g', g.Same (C.reach (f :: rest)) g' → X e (f :: rest) g')
    (hfail : ∀ e g', g'.kernels ≠ [] → X e (f :: rest) g')
    (hQ : validateFields g.uncertain session source rhs (some output) = .ok () →
      Q () (f :: rest) (g.ran l)) :
    (C.logic P).wpx (scope [] [] do
      let uncertain ← Op.completions
      Op.ofExcept (validateFields uncertain session source rhs (some output))
      let _ ← Op.operation (.charge .operation) session
      Op.bindDevice session
      let views ← Gpu.views source
      Completion.run output.storage.tensor.storage.id do
        Op.execute label session (launch views)) Q X (f :: rest) g := by
  have hinv := hfree.inv
  have hdrop := logic_dropAll P hinv
  have hsame := Ghost.Same.refl (C.reach (f :: rest)) g
  rw [Logic.wpx_scope]
  simp only [Logic.wpx_bind, wpx_completions, wpx_ofExcept, wpx_operation, wpx_bindDevice,
    logic_inv, hinv, hdrop, true_and, eq_true hsession]
  intro uncertain hagree
  have hagree : ∀ id ∈ C.reach (f :: rest), uncertain id = g.uncertain id := hagree
  have hcongr : validateFields uncertain session source rhs (some output) =
      validateFields g.uncertain session source rhs (some output) := by
    refine validateFields_congr (hagree _ (hargs.input _ List.mem_cons_self).1) ?_
    intro field hfield
    rcases List.mem_append.mp hfield with hf | hf
    · exact hagree _ (hargs.input _ (List.mem_cons_of_mem _ (List.mem_map_of_mem hf))).1
    · obtain rfl := List.mem_singleton.mp hf
      exact hagree _ (mem_reach_of_exclusive hargs.output_mem)
  rw [hcongr]
  refine ⟨?_, fun e _ => hX e g hsame⟩
  intro _ hok
  have haccepted := validateFields_ok hok
  refine ⟨fun e => hX e _ (hsame.refuse e), hwork hok, fun e => hX _ _ hsame.stop, ?_⟩
  refine wpx_views hinv hargs.source_kept (fun e => hX e g hsame) ?_
  rw [← hl, ← hout]
  refine wpx_run hfree ?_ ?_ ?_ ?_
  · exact launchable_of_accepted (hargs.congr (.refl _)) haccepted (hwork hok) hsession rfl
      (fun _ => by rw [hout]; exact Function.update_self ..) (hfree.permit _ _ _)
      (hwell haccepted) hinputs hout
  · rw [hout]
    exact hargs.lent
  · exact fun e g' h => hfail e g' h
  · exact hQ hok

end Launches

section Steps

variable {fs : Frames Name Atom} {source : HaloGrid2D P} {rhs output : Field2D P}
  {params : JacobiParams α}

/-- The launch of a single step. -/
def Gpu.jacobiLaunch (source : HaloGrid2D P) (rhs output : Field2D P) (params : JacobiParams α) :
    Launch α :=
  .jacobi output.storage.tensor (viewsOf source.shape source.storage.tensor) rhs.storage.tensor
    params.omega params.hSquared

def Gpu.laplacianLaunch (source : HaloGrid2D P) (output : Field2D P) (params : LaplacianParams α) :
    Launch α :=
  .laplacian output.storage.tensor (viewsOf source.shape source.storage.tensor)
    params.inverseHSquared

theorem rowMajor_of_shape (hkept : output.Kept) (hshape : output.shape = source.shape) :
    output.storage.tensor.RowMajor source.shape.interior :=
  hshape ▸ hkept.rowMajor

omit [Scalar α] in
theorem jacobiLaunch_wellFormed (h : Arguments C fs g source (some rhs) output)
    (hok : Accepted g.uncertain session source [rhs, output]) :
    (Gpu.jacobiLaunch source rhs output params).WellFormed source.shape := by
  have hrhs := rowMajor_of_shape (h.rhs_kept rhs rfl) (hok.shape_eq rhs List.mem_cons_self)
  have hout := rowMajor_of_shape h.output_kept
    (hok.shape_eq output (List.mem_cons_of_mem _ List.mem_cons_self))
  refine .jacobi hout h.source_kept.rowMajor (directionalViews_eq h.source_kept.rowMajor) hrhs ?_
  intro t ht
  rcases List.mem_cons.mp ht with rfl | ht
  · exact (h.input _ List.mem_cons_self).2.1
  · obtain rfl := List.mem_singleton.mp ht
    exact (h.input rhs.storage (List.mem_cons_of_mem _ List.mem_cons_self)).2.1

omit [Scalar α] in
theorem laplacianLaunch_wellFormed {params : LaplacianParams α}
    (h : Arguments C fs g source none output)
    (hok : Accepted g.uncertain session source [output]) :
    (Gpu.laplacianLaunch source output params).WellFormed source.shape := by
  have hout := rowMajor_of_shape h.output_kept (hok.shape_eq output List.mem_cons_self)
  exact .laplacian hout h.source_kept.rowMajor (directionalViews_eq h.source_kept.rowMajor)
    (h.input _ List.mem_cons_self).2.1

omit [Scalar α] in
theorem jacobiLaunch_inputs : ∀ t ∈ (Gpu.jacobiLaunch source rhs output params).inputs,
    t ∈ [source.storage.tensor, rhs.storage.tensor] := by
  intro t ht
  simpa [Gpu.jacobiLaunch, Launch.inputs, ReadViews.all, viewsOf] using ht

omit [Scalar α] in
theorem laplacianLaunch_inputs {params : LaplacianParams α} :
    ∀ t ∈ (Gpu.laplacianLaunch source output params).inputs, t ∈ [source.storage.tensor] := by
  intro t ht
  simpa [Gpu.laplacianLaunch, Launch.inputs, ReadViews.all, viewsOf] using ht

theorem jacobiLaunch_commit (h : output.storage.tensor.RowMajor source.shape.interior)
    {read : ℕ → List α} : (Gpu.jacobiLaunch source rhs output params).commit read =
      Reference.jacobi source.shape.interior params (read source.storage.tensor.storage.id)
        (read rhs.storage.tensor.storage.id) := by
  simp only [Gpu.jacobiLaunch, Launch.commit, h.extent_eq]
  rfl

theorem laplacianLaunch_commit {params : LaplacianParams α}
    (h : output.storage.tensor.RowMajor source.shape.interior) {read : ℕ → List α} :
    (Gpu.laplacianLaunch source output params).commit read =
      Reference.laplacian source.shape.interior params
        (read source.storage.tensor.storage.id) := by
  simp only [Gpu.laplacianLaunch, Launch.commit, h.extent_eq]
  rfl

theorem wpx_stepInto (hfree : C.Free) (hsession : session.id = C.session)
    (hargs : Arguments C (f :: rest) g source (some rhs) output)
    (hwork : validateStep g.uncertain session source rhs (some output) = .ok () → C.work)
    {Q : Unit → Frames Name Atom → Ghost α → Prop}
    (hX : ∀ e g', g.Same (C.reach (f :: rest)) g' → X e (f :: rest) g')
    (hfail : ∀ e g', g'.kernels ≠ [] → X e (f :: rest) g')
    (hQ : validateStep g.uncertain session source rhs (some output) = .ok () →
      Q () (f :: rest) (g.ran (Gpu.jacobiLaunch source rhs output params))) :
    (C.logic P).wpx (Gpu.stepInto session source rhs output params) Q X (f :: rest) g :=
  wpx_launchInto hfree hsession hargs hwork rfl (jacobiLaunch_wellFormed hargs)
    jacobiLaunch_inputs rfl hX hfail hQ

theorem wpx_laplacianInto {params : LaplacianParams α} (hfree : C.Free)
    (hsession : session.id = C.session) (hargs : Arguments C (f :: rest) g source none output)
    (hwork : validateFields g.uncertain session source none (some output) = .ok () → C.work)
    {Q : Unit → Frames Name Atom → Ghost α → Prop}
    (hX : ∀ e g', g.Same (C.reach (f :: rest)) g' → X e (f :: rest) g')
    (hfail : ∀ e g', g'.kernels ≠ [] → X e (f :: rest) g')
    (hQ : validateFields g.uncertain session source none (some output) = .ok () →
      Q () (f :: rest) (g.ran (Gpu.laplacianLaunch source output params))) :
    (C.logic P).wpx (Gpu.laplacianInto session source output params) Q X (f :: rest) g :=
  wpx_launchInto hfree hsession hargs hwork rfl (laplacianLaunch_wellFormed hargs)
    laplacianLaunch_inputs rfl hX hfail hQ

theorem wpx_step (hfree : C.Free) (hsession : session.id = C.session) (hsource : source.Kept)
    (hrhs : rhs.Kept)
    (hinput : ∀ b ∈ [source.storage, rhs.storage], b.tensor.storage.id ∈ C.reach (f :: rest) ∧
      (g.uncertain b.tensor.storage.id = false → g.Ready b.tensor.storage))
    (hwork : validateStep g.uncertain session source rhs none = .ok () → C.work)
    {Q : Field2D P → Frames Name Atom → Ghost α → Prop}
    (hX : ∀ e g', g.Same (C.reach (f :: rest)) g' → X e (f :: rest) g')
    (hfail : ∀ e g', g'.kernels ≠ [] → X e (f :: rest) g')
    (hQ : ∀ b g', b.shape = source.shape → b.session = session →
      b.Kept source.shape.interior → validateStep g.uncertain session source rhs none = .ok () →
      Uploaded g g' (C.reach (f :: rest)) b.tensor.storage
        (List.replicate source.shape.interiorLen Scalar.zero) →
      Q ⟨b⟩ ((b.entries .output ++ f) :: rest)
        (g'.ran (Gpu.jacobiLaunch source rhs ⟨b⟩ params))) :
    (C.logic P).wpx (Gpu.step session source rhs params) Q X (f :: rest) g := by
  have hinv := hfree.inv
  have hdrop := logic_dropAll P hinv
  have hsame := Ghost.Same.refl (C.reach (f :: rest)) g
  rw [Gpu.step, Logic.wpx_scope]
  simp only [Logic.wpx_bind, wpx_completions, wpx_ofExcept, logic_inv, hinv, hdrop, true_and]
  intro uncertain hagree
  have hagree : ∀ id ∈ C.reach (f :: rest), uncertain id = g.uncertain id := hagree
  have hcongr : validateStep uncertain session source rhs none =
      validateStep g.uncertain session source rhs none := by
    refine validateFields_congr (hagree _ (hinput _ List.mem_cons_self).1) ?_
    intro field hfield
    obtain rfl := List.mem_singleton.mp hfield
    exact hagree _ (hinput _ (List.mem_cons_of_mem _ List.mem_cons_self)).1
  rw [hcongr]
  refine ⟨?_, fun e _ => hX e g hsame⟩
  intro _ hok
  have haccepted := validateFields_ok hok
  refine wpx_zeros hinv (hwork hok) hsession (fun e g' h => hX e g' h) ?_
  intro b g' hshape hs hkept hup
  have hup : Uploaded g g' (C.reach (f :: rest)) b.tensor.storage
    (List.replicate source.shape.interiorLen Scalar.zero) := hup
  have hout : (⟨b⟩ : Field2D P).Kept := by
    rw [Field2D.Kept, Field2D.shape, hshape]
    exact hkept
  have hgrow : ∀ id ∈ C.reach (f :: rest), id ∈ C.reach ((b.entries .output ++ []) :: f :: rest) :=
    fun id hid => List.mem_cons_of_mem _ hid
  have hargs : Arguments C ((b.entries .output ++ []) :: f :: rest) g' source (some rhs) ⟨b⟩ := by
    refine ⟨hsource, ?_, hout, ?_, List.mem_cons_self, fun _ => ?_, ?_⟩
    · rintro field ⟨⟩
      exact hrhs
    · intro a ha
      obtain ⟨hreach, hready⟩ := hinput a ha
      refine ⟨hgrow _ hreach, fun he => hup.fresh (he ▸ hreach), fun hu => ?_⟩
      exact hup.same.ready hreach (hready ((hup.same.uncertain_eq _ hreach).symm.trans hu))
    · refine ⟨_, hup.status_eq, ?_⟩
      rw [List.length_replicate, hkept.rowMajor.len_eq, source.shape.interiorLen_eq]
      rfl
    · intro s hs hid
      refine absurd ?_ hup.fresh
      rw [← hid]
      exact List.mem_append_left _ (List.mem_append_right _ (List.mem_map_of_mem hs))
  refine wpx_stepInto hfree hsession hargs (fun _ => hwork hok) ?_ ?_ ?_
  · intro e g'' h
    exact hX e g'' (hup.same.trans (h.mono hgrow))
  · exact fun e g'' h => hfail e g'' h
  · exact fun _ => hQ b g' hshape hs hkept hok hup

/-- What the arguments of `step_into_async` own. -/
def Gpu.stepEntries (source : HaloGrid2D P) (rhs output : Field2D P) : Frame Name Atom :=
  source.storage.entries .source ++ rhs.storage.entries .rhs ++ output.storage.entries .output

/-- What the future of `step_into_async` owns. -/
def Gpu.stepFrame (session : Session) (source : HaloGrid2D P) (rhs output : Field2D P) :
    Frame Name Atom :=
  (.charge .operation, .reservation ⟨session.id, 0, false⟩) ::
    (source.storage.entries .source ++ output.storage.entries .output ++ rhs.storage.entries .rhs)

theorem stepFrame_yield : Frames.yield Gpu.stepCapture
    (Frames.push [(Name.charge .operation, Atom.reservation ⟨session.id, 0, false⟩)]
      (Frames.enter (moveBuffer .output .output ++ moveBuffer .rhs .rhs ++
        moveBuffer .source .source) [Gpu.stepEntries source rhs output])) =
    [[], Gpu.stepFrame session source rhs output] := by
  simp [Frames.yield, Frames.push, Frames.enter, Frames.relocate, Gpu.stepCapture, moveBuffer,
    Gpu.stepFrame, Gpu.stepEntries, Buffer.entries]

theorem stepFrame_enter : Frames.own [(.charge .operation, .charge .operation)]
    (Frames.enter Gpu.stepCapture [Gpu.stepFrame session source rhs output]) =
    [Gpu.stepFrame session source rhs output, []] := by
  simp [Frames.own, Frames.enter, Frames.relocate, Gpu.stepCapture, moveBuffer, Gpu.stepFrame,
    Buffer.entries]

theorem stepFrame_return : Frames.yield (moveBuffer .source .source ++ moveBuffer .rhs .rhs ++
      moveBuffer .output .output) [Gpu.stepFrame session source rhs output, []] =
    [[(.charge .operation, .reservation ⟨session.id, 0, false⟩)],
      Gpu.stepEntries source rhs output] := by
  simp [Frames.yield, Frames.relocate, moveBuffer, Gpu.stepFrame, Gpu.stepEntries,
    Buffer.entries]

theorem wpx_stepIntoAsync (hinv : ∀ fs g, C.inv fs g) (hlent : C.lent = [])
    (hsession : session.id = C.session) (hpolled : g.polled = false)
    (hargs : Arguments C [Gpu.stepEntries source rhs output] g source (some rhs) output)
    (hwork : validateStep g.uncertain session source rhs (some output) = .ok () → C.work)
    {held : List Atom}
    (hheld : held = .reservation ⟨session.id, 0, false⟩ ::
      Frames.resources [Gpu.stepEntries source rhs output])
    (hidle : ∀ fs : Frames Name Atom, fs.resources.Perm held → C.idle fs)
    (hpermit : ∀ (fs : Frames Name Atom) (g' : Ghost α), fs.resources.Perm held →
      g'.polled = true → g'.stopped = g.stopped → g'.kernels = g.kernels →
      C.permit fs g' (Gpu.jacobiLaunch source rhs output params))
    {Q : StepBuffers P → Frames Name Atom → Ghost α → Prop}
    (hX : ∀ e g', g'.polled = g.polled →
      (validateStep g.uncertain session source rhs (some output) = .error e ∨
        g'.refused = some e) → X e [[]] g')
    (hfail : ∀ e g', g'.polled = true → X e [[]] g')
    (hQ : validateStep g.uncertain session source rhs (some output) = .ok () →
      Q ⟨source, rhs, output⟩ [Gpu.stepEntries source rhs output]
        (({ g with polled := true } : Ghost α).succeed
          (Gpu.jacobiLaunch source rhs output params))) :
    (C.logic P).wpx (Gpu.stepIntoAsync session source rhs output params) Q X
      [Gpu.stepEntries source rhs output] g := by
  have hdrop := logic_dropAll P hinv
  rw [Gpu.stepIntoAsync, Logic.wpx_bind, Logic.wpx_scope]
  simp only [Logic.wpx_bind, wpx_completions, wpx_ofExcept, wpx_operation, logic_inv, hinv, hdrop,
    true_and, eq_true hsession]
  intro uncertain hagree
  have hparams := enter_perm (moveBuffer .output .output ++ moveBuffer .rhs .rhs ++
    moveBuffer .source .source) [Gpu.stepEntries source rhs output]
  have hagree : ∀ id ∈ C.reach [Gpu.stepEntries source rhs output],
      uncertain id = g.uncertain id := by
    intro id hid
    exact hagree id ((mem_reach_congr (ids_perm hparams)).mpr hid)
  have hcongr : validateStep uncertain session source rhs (some output) =
      validateStep g.uncertain session source rhs (some output) := by
    refine validateFields_congr (hagree _ (hargs.input _ List.mem_cons_self).1) ?_
    intro field hfield
    rcases List.mem_cons.mp hfield with rfl | hf
    · exact hagree _ (hargs.input _ (List.mem_cons_of_mem _ List.mem_cons_self)).1
    · obtain rfl := List.mem_singleton.mp hf
      exact hagree _ (mem_reach_of_exclusive hargs.output_mem)
  rw [hcongr]
  refine ⟨?_, fun e he => hX e g rfl (.inl he)⟩
  intro _ hok
  have haccepted := validateFields_ok hok
  refine ⟨fun e => hX e _ rfl (.inr rfl), ?_⟩
  rw [wpx_lazy, stepFrame_yield, List.tail_cons]
  have hperm : (Frames.resources [Gpu.stepFrame session source rhs output]).Perm held := by
    have hyield := yield_perm Gpu.stepCapture
      (Frames.push [(Name.charge .operation, Atom.reservation ⟨session.id, 0, false⟩)]
        (Frames.enter (moveBuffer .output .output ++ moveBuffer .rhs .rhs ++
          moveBuffer .source .source) [Gpu.stepEntries source rhs output]))
    rw [stepFrame_yield] at hyield
    rw [hheld]
    exact hyield.trans ((push_perm _ _).trans (hparams.cons _))
  have hperm' : (Frames.resources [Gpu.stepFrame session source rhs output, []]).Perm held := by
    simpa using hperm
  refine ⟨hwork hok, hpolled, hidle _ hperm, hinv _ _, ?_⟩
  rw [Logic.wpx_scope]
  refine ⟨hinv _ _, ?_⟩
  simp only [Logic.wpx_bind, Logic.wpx_rebind, wpx_bindDevice, logic_inv, hinv, hdrop, true_and,
    stepFrame_enter, List.tail_cons]
  refine ⟨hwork hok, fun e => hfail _ _ rfl, ?_⟩
  refine wpx_views hinv hargs.source_kept (fun e => hfail e _ rfl) ?_
  rw [wpx_execute]
  simp only [hinv, true_and, Logic.wpx_pure, stepFrame_return, List.tail_cons]
  refine ⟨?_, hQ hok, fun e ks _ => hfail _ _ rfl⟩
  have hids := ids_perm hperm'
  rw [hheld] at hids
  refine launchable_of_accepted (hargs.congr hids) haccepted (hwork hok) hsession rfl ?_
    (hpermit _ _ hperm' rfl rfl rfl) (jacobiLaunch_wellFormed hargs haccepted) jacobiLaunch_inputs rfl
  rw [hlent]
  simp

end Steps

section Grids

variable {initial rhs : List α}

/-- `double_grid` checks what a launch over the haloed extent needs. -/
def Gpu.checkGrid (shape : Shape2D P) (initial rhs : List α) : Except Error Unit := do
  checkLen "source" shape.haloedLen initial.length
  checkLen "rhs" shape.interiorLen rhs.length
  [("timestep row blocks", shape.haloed.1),
      ("timestep column blocks", shape.haloed.2)].forM fun (quantity, actual) =>
    if 65535 < actual then .error (.shapeLimit quantity actual 65535) else .ok ()

/-- A new buffer and what is known after its upload. -/
structure Made (C : Terms α) (session : Session) (shape : Shape2D P) (g : Ghost α)
    (b : Buffer P) (extent : ℕ × ℕ) (data : List α) : Prop where
  shape_eq : b.shape = shape
  session_eq : b.session = session
  kept : b.Kept extent
  status_eq : g.status b.tensor.storage.id = .settled data
  uncertain_eq : g.uncertain b.tensor.storage.id = false

omit [Scalar α] in
theorem Made.keep {g' : Ghost α} {b : Buffer P} {reach : List ℕ}
    (h : Made C session shape g b extent data) (hsame : g.Same reach g')
    (hmem : b.tensor.storage.id ∈ reach) : Made C session shape g' b extent data :=
  ⟨h.shape_eq, h.session_eq, h.kept, (hsame.status_eq _ hmem).trans h.status_eq,
    (hsame.uncertain_eq _ hmem).trans h.uncertain_eq⟩

theorem wpx_doubleGrid (hinv : ∀ fs g, C.inv fs g) (hsession : session.id = C.session)
    (hwork : Gpu.checkGrid shape initial rhs = .ok () → C.work)
    {Q : DoubleGrid P → Frames Name Atom → Ghost α → Prop}
    (hX : ∀ e g', g.Same (C.reach (f :: rest)) g' → X e (f :: rest) g')
    (hQ : ∀ (current next forcing : Buffer P) (g' : Ghost α),
      Gpu.checkGrid shape initial rhs = .ok () → g.Same (C.reach (f :: rest)) g' →
      Made C session shape g' current shape.haloed initial →
      Made C session shape g' next shape.haloed initial →
      Made C session shape g' forcing shape.interior rhs →
      [current.tensor.storage.id, next.tensor.storage.id, forcing.tensor.storage.id].Nodup →
      Q ⟨⟨current⟩, ⟨next⟩, ⟨forcing⟩, 0⟩
        (((⟨⟨current⟩, ⟨next⟩, ⟨forcing⟩, 0⟩ : DoubleGrid P).entries ++ f) :: rest) g') :
    (C.logic P).wpx (Gpu.doubleGrid session shape initial rhs) Q X (f :: rest) g := by
  have hdrop := logic_dropAll P hinv
  have hsame := Ghost.Same.refl (C.reach (f :: rest)) g
  have hbytes : P.checkedMul shape.haloedLen sizeOfF32 =
      some (shape.haloed.1 * shape.haloed.2 * sizeOfF32) :=
    checkedMul_eq (by rw [haloedLen_prod]) (bounded_haloed shape).bytes_le
  have hinterior : shape.interiorBytes = shape.interior.1 * shape.interior.2 * sizeOfF32 := by
    rw [shape.interiorBytes_eq, shape.interiorLen_eq]
    rfl
  rw [Gpu.doubleGrid, Logic.wpx_scope]
  simp only [Logic.wpx_bind, wpx_ofExcept, wpx_checked hbytes, wpx_buffer, logic_inv, hinv, hdrop,
    true_and, eq_true hsession]
  refine ⟨?_, fun e _ => hX e g hsame⟩
  intro _ hinitial
  refine ⟨?_, fun e _ => hX e g hsame⟩
  intro _ hrhs
  refine ⟨?_, fun e _ => hX e g hsame⟩
  intro _ hblocks
  have hok : Gpu.checkGrid shape initial rhs = .ok () :=
    bind_eq_ok.mpr ⟨(), hinitial, bind_eq_ok.mpr ⟨(), hrhs, hblocks⟩⟩
  have hwork := hwork hok
  have hinitial := checkLen_eq_ok.mp hinitial
  have hrhs := checkLen_eq_ok.mp hrhs
  refine ⟨fun e => hX e _ (hsame.refuse e), fun e => hX e _ (hsame.refuse e),
    fun e => hX e _ (hsame.refuse e), ?_⟩
  refine wpx_uploadReserved hinv hwork hsession (hinitial.trans (haloedLen_prod shape))
    (bounded_haloed shape) rfl rfl (fun e g' h => hX e g' h) ?_
  intro current g₁ hshape₁ hs₁ hkept₁ hup₁
  have hsame₁ : g.Same (C.reach (f :: rest)) g₁ := hup₁.same
  have hcurrent : Made C session shape g₁ current shape.haloed initial :=
    ⟨hshape₁, hs₁, hkept₁, hup₁.status_eq, hup₁.uncertain_eq⟩
  refine wpx_uploadReserved hinv hwork hsession (hinitial.trans (haloedLen_prod shape))
    (bounded_haloed shape) rfl rfl ?_ ?_
  · intro e g' h
    exact hX e g' (hsame₁.trans (h.mono fun _ hid => List.mem_cons_of_mem _ hid))
  · intro next g₂ hshape₂ hs₂ hkept₂ hup₂
    have hsame₂ : g₁.Same (current.tensor.storage.id :: C.reach (f :: rest)) g₂ := hup₂.same
    have hkeep₂ := hsame₁.trans (hsame₂.mono fun _ hid => List.mem_cons_of_mem _ hid)
    have hcurrent := hcurrent.keep hsame₂ List.mem_cons_self
    have hnext : Made C session shape g₂ next shape.haloed initial :=
      ⟨hshape₂, hs₂, hkept₂, hup₂.status_eq, hup₂.uncertain_eq⟩
    refine wpx_uploadReserved hinv hwork hsession (hrhs.trans shape.interiorLen_eq)
      (bounded_interior shape) (by rw [hinterior]) rfl ?_ ?_
    · intro e g' h
      exact hX e g' (hkeep₂.trans (h.mono fun _ hid =>
        List.mem_cons_of_mem _ (List.mem_cons_of_mem _ hid)))
    · intro forcing g₃ hshape₃ hs₃ hkept₃ hup₃
      have hsame₃ : g₂.Same (next.tensor.storage.id :: current.tensor.storage.id ::
        C.reach (f :: rest)) g₃ := hup₃.same
      refine hQ current next forcing g₃ hok ?_ ?_ ?_ ?_ ?_
      · exact hkeep₂.trans (hsame₃.mono fun _ hid =>
          List.mem_cons_of_mem _ (List.mem_cons_of_mem _ hid))
      · exact hcurrent.keep hsame₃ (List.mem_cons_of_mem _ List.mem_cons_self)
      · exact hnext.keep hsame₃ List.mem_cons_self
      · exact ⟨hshape₃, hs₃, hkept₃, hup₃.status_eq, hup₃.uncertain_eq⟩
      · have hne₂ : next.tensor.storage.id ∉ current.tensor.storage.id :: C.reach (f :: rest) :=
          hup₂.fresh
        have hne₃ : forcing.tensor.storage.id ∉ next.tensor.storage.id ::
          current.tensor.storage.id :: C.reach (f :: rest) := hup₃.fresh
        simp only [List.mem_cons, not_or] at hne₂ hne₃
        simp [Ne.symm hne₂.1, Ne.symm hne₃.1, Ne.symm hne₃.2.1]

end Grids
end Gudra
