import Gudra.Facade

/-! What the validation of arguments accepts. -/
namespace Gudra

variable {P : Platform} {b : Buffer P} {session : Session} {shape : Shape2D P} {role : String}
  {uncertain uncertain' : ℕ → Bool} {source : HaloGrid2D P} {field : Field2D P}
  {rhs output : Option (Field2D P)}

/-- A buffer that is what its constructor made: row-major, on its session, and charged for. -/
structure Buffer.Kept (b : Buffer P) (extent : ℕ × ℕ) : Prop where
  rowMajor : b.tensor.RowMajor extent
  device_eq : b.tensor.storage.device = b.session.device
  session_eq : b.tensor.storage.session = b.session.id
  reservation_eq : b.reservation = ⟨b.session.id, extent.1 * extent.2 * sizeOfF32, true⟩

def HaloGrid2D.Kept (g : HaloGrid2D P) : Prop := g.storage.Kept g.shape.haloed

def Field2D.Kept (f : Field2D P) : Prop := f.storage.Kept f.shape.interior

theorem ensureReady_eq_ok {uncertain : Bool} : ensureReady uncertain role = .ok () ↔
    uncertain = false := by
  cases uncertain <;> simp [ensureReady]

/-- What a buffer must be to pass. -/
structure Passes (uncertain : ℕ → Bool) (session : Session) (b : Buffer P) : Prop where
  certain : uncertain b.tensor.storage.id = false
  session_eq : session.id = b.session.id

theorem validateShape_ok (h : validateShape shape role (some field) = .ok ()) :
    field.shape = shape := by
  by_contra hne
  rw [validateShape, if_pos hne] at h
  cases h

theorem validateBuffer_ok
    (h : validateBuffer uncertain session shape role (some b) = .ok ()) :
    Passes uncertain session b := by
  rw [validateBuffer, bind_eq_ok] at h
  obtain ⟨_, hready, h⟩ := h
  refine ⟨ensureReady_eq_ok.mp hready, ?_⟩
  by_contra hne
  simp only [ne_eq, hne, not_false_eq_true, if_true] at h
  cases h

/-- On a buffer that its constructor made, only the flag and the session can be rejected. -/
theorem validateBuffer_kept
    (hkept : b.Kept (if role = "source" then shape.haloed else shape.interior))
    (hknown : session.id = b.session.id → session = b.session) :
    validateBuffer uncertain session shape role (some b) =
      if uncertain b.tensor.storage.id then .error (.invalidBuffer role)
      else if session.id ≠ b.session.id then .error (.contextMismatch role) else .ok () := by
  rw [validateBuffer]
  cases uncertain b.tensor.storage.id with
  | true => rfl
  | false =>
    by_cases hs : session.id = b.session.id
    · have hdevice : b.tensor.storage.device = session.device := by
        rw [hkept.device_eq, hknown hs]
      have hshape := matchesMetadata_pair
      have hstrides := matchesMetadata_strides
      simp [ensureReady, hs, hdevice, hkept.rowMajor.shape_eq, hkept.rowMajor.strides_eq, hshape,
        hstrides, bind, Except.bind]
    · simp [ensureReady, hs, bind, Except.bind]

theorem validateFields_eq_ok :
    validateFields uncertain session source rhs output = .ok () ↔
      (validateShape source.shape "rhs" rhs = .ok () ∧
        validateShape source.shape "output" output = .ok ()) ∧
      validateBuffer uncertain session source.shape "source" (some source.storage) = .ok () ∧
      validateBuffer uncertain session source.shape "rhs" (rhs.map (·.storage)) = .ok () ∧
      validateBuffer uncertain session source.shape "output" (output.map (·.storage)) = .ok () := by
  simp only [validateFields, List.forM_eq_forM, List.forM_cons, List.forM_nil, bind_eq_ok]
  constructor
  · rintro ⟨_, ⟨_, hr, _, ho, _⟩, _, hs, _, hrhs, _, hout, _⟩
    exact ⟨⟨hr, ho⟩, hs, hrhs, hout⟩
  · rintro ⟨⟨hr, ho⟩, hs, hrhs, hout⟩
    exact ⟨(), ⟨(), hr, (), ho, rfl⟩, (), hs, (), hrhs, (), hout, rfl⟩

/-- What the arguments must be to pass. -/
structure Accepted (uncertain : ℕ → Bool) (session : Session) (source : HaloGrid2D P)
    (fields : List (Field2D P)) : Prop where
  source_ok : Passes uncertain session source.storage
  shape_eq : ∀ f ∈ fields, f.shape = source.shape
  field_ok : ∀ f ∈ fields, Passes uncertain session f.storage

theorem validateFields_ok
    (h : validateFields uncertain session source rhs output = .ok ()) :
    Accepted uncertain session source (rhs.toList ++ output.toList) := by
  obtain ⟨⟨hr, ho⟩, hs, hrhs, hout⟩ := validateFields_eq_ok.mp h
  refine ⟨validateBuffer_ok hs, ?_, ?_⟩
  · intro f hf
    rcases List.mem_append.mp hf with hf | hf
    · obtain rfl := Option.mem_toList.mp hf
      exact validateShape_ok hr
    · obtain rfl := Option.mem_toList.mp hf
      exact validateShape_ok ho
  · intro f hf
    rcases List.mem_append.mp hf with hf | hf
    · obtain rfl := Option.mem_toList.mp hf
      exact validateBuffer_ok hrhs
    · obtain rfl := Option.mem_toList.mp hf
      exact validateBuffer_ok hout

/-- The flags are read at the arguments only. -/
theorem validateFields_congr
    (hs : uncertain source.storage.tensor.storage.id = uncertain' source.storage.tensor.storage.id)
    (hf : ∀ f ∈ rhs.toList ++ output.toList,
      uncertain f.storage.tensor.storage.id = uncertain' f.storage.tensor.storage.id) :
    validateFields uncertain session source rhs output =
      validateFields uncertain' session source rhs output := by
  have hbuffer : ∀ role (b : Buffer P),
      uncertain b.tensor.storage.id = uncertain' b.tensor.storage.id →
      validateBuffer uncertain session source.shape role (some b) =
        validateBuffer uncertain' session source.shape role (some b) := by
    intro role b hb
    simp only [validateBuffer, hb]
  have hopt : ∀ role (field : Option (Field2D P)), (∀ f ∈ field.toList,
      uncertain f.storage.tensor.storage.id = uncertain' f.storage.tensor.storage.id) →
      validateBuffer uncertain session source.shape role (field.map (·.storage)) =
        validateBuffer uncertain' session source.shape role (field.map (·.storage)) := by
    intro role field hfield
    cases field with
    | none => rfl
    | some f => exact hbuffer role f.storage (hfield f List.mem_cons_self)
  have hrhs := hopt "rhs" rhs fun f h => hf f (List.mem_append_left _ h)
  have hout := hopt "output" output fun f h => hf f (List.mem_append_right _ h)
  simp only [validateFields, List.forM_eq_forM, List.forM_cons, List.forM_nil, hbuffer _ _ hs,
    hrhs, hout]

section Kept

theorem validateBuffer_source (hkept : source.Kept)
    (hknown : session.id = source.storage.session.id → session = source.storage.session) :
    validateBuffer uncertain session source.shape "source" (some source.storage) =
      if uncertain source.storage.tensor.storage.id then .error (.invalidBuffer "source")
      else if session.id ≠ source.storage.session.id then .error (.contextMismatch "source")
      else .ok () := by
  refine validateBuffer_kept ?_ hknown
  rwa [if_pos rfl]

/-- The buffers of a field, or none. -/
theorem validateBuffer_field {field : Option (Field2D P)} (hrole : role ≠ "source")
    (hkept : ∀ f ∈ field, f.Kept) (hshape : validateShape source.shape role field = .ok ())
    (hknown : ∀ f ∈ field, session.id = f.storage.session.id → session = f.storage.session) :
    validateBuffer uncertain session source.shape role (field.map (·.storage)) =
      match field with
      | none => .ok ()
      | some f =>
        if uncertain f.storage.tensor.storage.id then .error (.invalidBuffer role)
        else if session.id ≠ f.storage.session.id then .error (.contextMismatch role)
        else .ok () := by
  cases field with
  | none => rfl
  | some f =>
    have hf := hkept f rfl
    rw [Field2D.Kept, validateShape_ok hshape] at hf
    refine validateBuffer_kept ?_ (hknown f rfl)
    rwa [if_neg hrole]

variable (hsource : source.Kept)
  (hknown : session.id = source.storage.session.id → session = source.storage.session)
  (hfields : ∀ f ∈ rhs.toList ++ output.toList,
    f.Kept ∧ (session.id = f.storage.session.id → session = f.storage.session))
include hsource hknown hfields

/-- On buffers that their constructors made, validation accepts all that it should. -/
theorem validateFields_of_accepted
    (h : Accepted uncertain session source (rhs.toList ++ output.toList)) :
    validateFields uncertain session source rhs output = .ok () := by
  have hshape : ∀ role (field : Option (Field2D P)), (∀ f ∈ field, f.shape = source.shape) →
      validateShape source.shape role field = .ok () := by
    intro role field hfield
    cases field with
    | none => rfl
    | some f => simp [validateShape, hfield f rfl]
  have hr := hshape "rhs" rhs fun f hf =>
    h.shape_eq f (List.mem_append_left _ (Option.mem_toList.mpr hf))
  have ho := hshape "output" output fun f hf =>
    h.shape_eq f (List.mem_append_right _ (Option.mem_toList.mpr hf))
  have hfield : ∀ role (field : Option (Field2D P)), role ≠ "source" →
      (∀ f ∈ field, f ∈ rhs.toList ++ output.toList) →
      validateShape source.shape role field = .ok () →
      validateBuffer uncertain session source.shape role (field.map (·.storage)) = .ok () := by
    intro role field hrole hmem hok
    rw [validateBuffer_field hrole (fun f hf => (hfields f (hmem f hf)).1) hok
      fun f hf => (hfields f (hmem f hf)).2]
    cases field with
    | none => rfl
    | some f =>
      obtain ⟨hcertain, hsession⟩ := h.field_ok f (hmem f rfl)
      simp [hcertain, hsession]
  have hs : validateBuffer uncertain session source.shape "source" (some source.storage) =
      .ok () := by
    rw [validateBuffer_source hsource hknown]
    simp [h.source_ok.certain, h.source_ok.session_eq]
  refine validateFields_eq_ok.mpr ⟨⟨hr, ho⟩, hs, ?_, ?_⟩
  · exact hfield "rhs" rhs (by decide)
      (fun f hf => List.mem_append_left _ (Option.mem_toList.mpr hf)) hr
  · exact hfield "output" output (by decide)
      (fun f hf => List.mem_append_right _ (Option.mem_toList.mpr hf)) ho

/-- The errors that a caller can cause. -/
def Error.OfArguments (e : Error) : Prop :=
  (∃ role expected actual, e = .shapeMismatch role expected actual) ∨
    (∃ role, e = .invalidBuffer role) ∨ ∃ role, e = .contextMismatch role

/-- The branch for broken metadata is dead. -/
theorem validateFields_error {e : Error}
    (h : validateFields uncertain session source rhs output = .error e) : e.OfArguments := by
  have hshape : ∀ role (field : Option (Field2D P)),
      validateShape source.shape role field = .error e → e.OfArguments := by
    intro role field hfield
    cases field with
    | none => cases hfield
    | some f =>
      by_cases hne : f.shape ≠ source.shape
      · rw [validateShape, if_pos hne] at hfield
        cases hfield
        exact .inl ⟨_, _, _, rfl⟩
      · rw [validateShape, if_neg hne] at hfield
        cases hfield
  have hcheck : ∀ {role : String} {id : ℕ} {b : Buffer P},
      (if uncertain id then .error (.invalidBuffer role)
        else if session.id ≠ b.session.id then .error (.contextMismatch role)
        else .ok () : Except Error Unit) = .error e → e.OfArguments := by
    intro role id b hb
    split at hb
    · cases hb
      exact .inr (.inl ⟨_, rfl⟩)
    · split at hb
      · cases hb
        exact .inr (.inr ⟨_, rfl⟩)
      · cases hb
  have hfield : ∀ role (field : Option (Field2D P)), role ≠ "source" →
      (∀ f ∈ field, f ∈ rhs.toList ++ output.toList) →
      validateShape source.shape role field = .ok () →
      validateBuffer uncertain session source.shape role (field.map (·.storage)) = .error e →
      e.OfArguments := by
    intro role field hrole hmem hok hb
    rw [validateBuffer_field hrole (fun f hf => (hfields f (hmem f hf)).1) hok
      fun f hf => (hfields f (hmem f hf)).2] at hb
    cases field with
    | none => cases hb
    | some f => exact hcheck hb
  simp only [validateFields, List.forM_eq_forM, List.forM_cons, List.forM_nil, bind_eq_error,
    bind_eq_ok] at h
  rcases h with (h | ⟨_, hr, h | ⟨_, ho, h⟩⟩) | ⟨_, ⟨_, hr, _, ho, -⟩, h⟩
  · exact hshape _ _ h
  · exact hshape _ _ h
  · cases h
  · rcases h with h | ⟨_, -, h | ⟨_, -, h | ⟨_, -, h⟩⟩⟩
    · rw [validateBuffer_source hsource hknown] at h
      exact hcheck h
    · exact hfield _ _ (by decide)
        (fun f hf => List.mem_append_left _ (Option.mem_toList.mpr hf)) hr h
    · exact hfield _ _ (by decide)
        (fun f hf => List.mem_append_right _ (Option.mem_toList.mpr hf)) ho h
    · cases h

end Kept
end Gudra
