import Gudra.Runs

/-! No launch aliases its buffers, and validation rejects no call that it should accept. -/
namespace Gudra

open Scope

variable {P : Platform} {α : Type}

/-- The launch `l` of session `s` on well-formed buffers, after the events `log`. -/
structure Launch.Safe (log : List (Event P α)) (s : ℕ) (l : Launch α) : Prop where
  wellFormed : ∃ shape : Shape2D P, l.WellFormed shape
  apart : ∀ t ∈ l.inputs, t.storage.id ≠ l.output.storage.id
  session_eq : ∀ t ∈ l.output :: l.inputs, t.storage.session = s
  /-- No operand was the output of an execution that failed or unwound. -/
  unbroken : ∀ t ∈ l.output :: l.inputs, ∀ j l', .failed j l' ∈ log →
    l'.output.storage.id ≠ t.storage.id

/-- The field that `zeros` hands to its caller. -/
def Field2D.Zeroed (session : Session) (f : Field2D P) : Prop :=
  ∃ s tensor, s.device = session.device ∧ s.session = session.id ∧ s.len = f.shape.interiorLen ∧
    (Tensor.uploaded s).reshape [f.shape.interior.1, f.shape.interior.2] = .ok tensor ∧
    f.storage = ⟨tensor, f.shape, session, ⟨session.id, f.shape.interiorBytes, true⟩⟩

theorem Field2D.Zeroed.kept {session : Session} {f : Field2D P} (h : f.Zeroed session) :
    f.Kept := by
  obtain ⟨s, tensor, hdevice, hs, hlen, hreshape, hstorage⟩ := h
  have hbound := bounded_interior f.shape
  have hsize : f.shape.interior.1 * f.shape.interior.2 = s.len := by
    apply Eq.symm
    exact hlen.trans f.shape.interiorLen_eq
  have hbytes : f.shape.interiorBytes =
      f.shape.interior.1 * f.shape.interior.2 * sizeOfF32 := by
    rw [f.shape.interiorBytes_eq, f.shape.interiorLen_eq]
    rfl
  rw [Tensor.reshape_uploaded hsize hbound.fst_le hbound.snd_le (hsize ▸ hbound.len_le)] at hreshape
  cases hreshape
  rw [Field2D.Kept, hstorage, hbytes]
  exact ⟨Tensor.rowMajor_ofRows hsize, hdevice, hs, rfl⟩

namespace World

/-- The handles that a validation may meet: those of the program, those of a call in progress, and
the output that `step` allocates. -/
inductive Handle (w : World P α) : Owner P → Prop where
  | owned {n : ℕ} {o : Owner P} (h : (n, o) ∈ w.owners) : Handle w o
  | named {i : ℕ} {t : Task P α} {c : Script α (Except Error (Outcome P α))} {r : Request P α}
      {o : Owner P} (hi : w.tasks[i]? = some t) (hc : t.control = .active c)
      (hr : t.request = some r) (ho : o ∈ r.named) : Handle w o
  | zeros {session : Session} {f : Field2D P} (hs : w.session? session.id = some session)
      (hf : f.Zeroed session) : Handle w (.field f)

variable [Scalar α] {w : World P α} {o : Owner P}

/-- A handle is what its constructor made, on a session of the run. -/
theorem Inv.handle (h : w.Inv) (ho : w.Handle o) :
    o.Kept ∧ ∀ b ∈ o.buffers, w.session? b.session.id = some b.session := by
  cases ho with
  | owned ho =>
    have hgood := h.owners _ ho
    exact ⟨hgood.kept, hgood.known⟩
  | named hi hc hr ho =>
    obtain ⟨⟨r, before, u, m, g, hruns, -⟩, -⟩ := h.active hi hc
    obtain rfl := Option.some.inj (hruns.request_eq.symm.trans hr)
    refine ⟨hruns.told.pre.kept o ho, fun b hb => hruns.known _ (.inr ⟨b, ?_, rfl⟩)⟩
    rw [← r.named_buffers]
    exact List.mem_flatMap.mpr ⟨o, ho, hb⟩
  | @zeros session f hs hf =>
    refine ⟨hf.kept, fun b hb => ?_⟩
    obtain rfl := List.mem_singleton.mp hb
    obtain ⟨s, tensor, -, -, -, -, hstorage⟩ := hf
    rw [hstorage]
    exact hs

end World

section Launches

variable [Scalar α] {log : List (Event P α)} {i : ℕ} {l : Launch α}

theorem Told.mem {r : Request P α} {before : List (Event P α)} {u : ℕ → Bool} {m : Addr → α}
    (h : Told log i r before u m) : .called i r (arguments u m r.buffers) ∈ log := by
  obtain ⟨after, rfl⟩ := h.called
  exact List.mem_append_right _ List.mem_cons_self

/-- A settled allocation was the output of no failed execution. -/
theorem ne_of_failed (h : GoodLog log) {j id : ℕ} {l' : Launch α} {data : List α}
    (hid : status log id = .settled data) (hf : .failed j l' ∈ log) :
    l'.output.storage.id ≠ id := by
  rintro rfl
  have hbroken := broken_of_failed h hf
  rw [hid] at hbroken
  cases hbroken

/-- An execution begins safely. -/
theorem Begins.safe {r : Request P α} {before : List (Event P α)} {u : ℕ → Bool}
    (hlog : GoodLog log) (h : Begins log i l r before u) : l.Safe log r.session.id where
  wellFormed := h.wellFormed
  apart := by
    obtain ⟨shape, hwf⟩ := h.wellFormed
    exact hwf.inputs_ne
  session_eq t ht := (h.operands t ht).1
  unbroken t ht j l' hf := by
    obtain ⟨-, data, hdata, -⟩ := h.operands t ht
    exact ne_of_failed hlog hdata hf

omit [Scalar α] in
theorem mem_of_kernelsOf {k : KernelEvent α} (hk : k ∈ kernelsOf i log) :
    ∃ e ∈ log, e.task = i ∧ e.kernel? = some k := by
  obtain ⟨e, he, hek⟩ := List.mem_filterMap.mp hk
  obtain ⟨hlog, hi⟩ := List.mem_filter.mp he
  exact ⟨e, hlog, of_decide_eq_true hi, hek⟩

omit [Scalar α] in
theorem submitted_of_kernelsOf (hk : .submitted l ∈ kernelsOf i log) : .submitted i l ∈ log := by
  obtain ⟨e, he, hi, hek⟩ := mem_of_kernelsOf hk
  cases e with
  | submitted j l' =>
    cases hek
    cases hi
    exact he
  | _ => cases hek

end Launches

section Aliasing

variable [Scalar α]

/-- In every run every launch is safe, also one whose submission fails; and validation accepts all
buffers of one shape on its session whose flags are clear, for its branch on metadata and those of
`directional_views` are dead. -/
theorem launches_safe (memory : Addr → α) (inputs : List (Input P α)) :
    let w := (World.init P memory).run inputs
    (∀ after i l log, w.log = after ++ .submitted i l :: log →
      ∃ r args, .called i r args ∈ log ∧ l.Safe log r.session.id) ∧
    (∀ after i l log, w.log = after ++ .failed i l :: log → .submitted i l ∈ log ∨
      ∃ r args, .called i r args ∈ log ∧ l.Safe log r.session.id) ∧
    ∀ session source rhs output, w.session? session.id = some session →
      w.Handle (.halo source) → (∀ f ∈ rhs.toList ++ output.toList, w.Handle (.field f)) →
      ((∀ f ∈ rhs.toList ++ output.toList, f.shape = source.shape) →
        (∀ b ∈ source.storage :: (rhs.toList ++ output.toList).map (·.storage),
          w.uncertain b.id = false ∧ b.session.id = session.id) →
        validateFields w.uncertain session source rhs output = .ok ()) ∧
      (∀ e, validateFields w.uncertain session source rhs output = .error e → e.OfArguments) ∧
      ∃ views, directionalViews source.shape source.storage.tensor = some (.ok views) := by
  intro w
  have hinv : w.Inv := World.inv_run (World.inv_init memory) inputs
  have hbegins : ∀ {i : ℕ} {l : Launch α} {log : List (Event P α)}, GoodLog log →
      (∃ r before u m, Told log i r before u m ∧ Begins log i l r before u) →
      ∃ r args, .called i r args ∈ log ∧ l.Safe log r.session.id := by
    rintro i l log hlog ⟨r, before, u, m, htold, hbegins⟩
    exact ⟨r, _, htold.mem, hbegins.safe hlog⟩
  refine ⟨?_, ?_, ?_⟩
  · intro after i l log he
    have hgood := he ▸ hinv.good
    have hlog : GoodLog (Event.submitted i l :: log) := hgood.of_append
    exact hbegins hlog.2 hlog.1
  · intro after i l log he
    have hgood := he ▸ hinv.good
    have hlog : GoodLog (Event.failed i l :: log) := hgood.of_append
    rcases hlog.1 with hfirst | ⟨ks, hks⟩ | ⟨ks, hks⟩
    · exact .inr (hbegins hlog.2 hfirst)
    · refine .inl (submitted_of_kernelsOf ?_)
      rw [hks]
      exact List.mem_cons_self
    · refine .inl (submitted_of_kernelsOf ?_)
      rw [hks]
      exact List.mem_cons_of_mem _ List.mem_cons_self
  · intro session source rhs output hsession hsource hfields
    have hknown : ∀ {o : Owner P}, w.Handle o → ∀ b ∈ o.buffers,
        session.id = b.session.id → session = b.session := by
      intro o ho b hb hid
      have hb := (hinv.handle ho).2 b hb
      rw [← hid, hsession] at hb
      exact Option.some.inj hb
    have hkept : source.Kept := (hinv.handle hsource).1
    have hs := hknown hsource source.storage List.mem_cons_self
    have hf : ∀ f ∈ rhs.toList ++ output.toList,
        f.Kept ∧ (session.id = f.storage.session.id → session = f.storage.session) :=
      fun f hf => ⟨(hinv.handle (hfields f hf)).1,
        hknown (hfields f hf) f.storage List.mem_cons_self⟩
    refine ⟨?_, ?_, ?_⟩
    · intro hshape hready
      apply validateFields_of_accepted hkept hs hf
      refine ⟨?_, hshape, ?_⟩
      · obtain ⟨hcertain, hid⟩ := hready source.storage List.mem_cons_self
        exact ⟨hcertain, hid.symm⟩
      · intro f hf
        obtain ⟨hcertain, hid⟩ :=
          hready f.storage (List.mem_cons_of_mem _ (List.mem_map_of_mem hf))
        exact ⟨hcertain, hid.symm⟩
    · exact fun e he => validateFields_error hkept hs hf he
    · exact ⟨_, directionalViews_eq hkept.rowMajor⟩

end Aliasing
end Gudra
