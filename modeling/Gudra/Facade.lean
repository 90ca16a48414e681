import Gudra.Launches
import Gudra.Limits
import Gudra.Lib.Scope

/-! The public operations of the GPU facade (`cutile_impl.rs`, `timesteps.rs`, `completion.rs`). -/
namespace Gudra

open Scope

/-- A session is its budget and private stream, named by `id`, on one device. -/
structure Session where
  id : ℕ
  device : ℕ
deriving DecidableEq, Repr

/-- The `completion` flag of a buffer is kept under the identity of its storage. -/
structure Buffer (P : Platform) where
  tensor : Tensor
  shape : Shape2D P
  session : Session
  reservation : Reservation
deriving DecidableEq

structure HaloGrid2D (P : Platform) where
  storage : Buffer P
deriving DecidableEq

structure Field2D (P : Platform) where
  storage : Buffer P
deriving DecidableEq

structure StepBuffers (P : Platform) where
  source : HaloGrid2D P
  rhs : Field2D P
  output : Field2D P
deriving DecidableEq

structure DoubleGrid (P : Platform) where
  current : HaloGrid2D P
  next : HaloGrid2D P
  rhs : Field2D P
  completed : ℕ
deriving DecidableEq

/-- A resource whose drop has an effect. -/
inductive Atom where
  | storage (s : Storage)
  | reservation (r : Reservation)
deriving DecidableEq, Repr

/-- The locals of the facade that own a resource. -/
inductive Var where
  | self
  | source
  | rhs
  | output
  | current
  | next
  | first
  | second
  | forcing
  | reservation
  | operation
  | tensor
  | retained
  | storage
deriving DecidableEq, Repr

/-- A buffer local owns its tensor and its reservation; other locals own one of them. -/
inductive Name where
  | tensor (x : Var)
  | charge (x : Var)
deriving DecidableEq, Repr

/-- What the facade asks of the budget, of cuTile and of the task that polls it. -/
inductive Effect (α : Type) where
  | buffer (x : Name) (session bytes : ℕ)
  | operation (x : Name) (session : ℕ)
  | bind (session : ℕ)
  /-- A cuTile call that may fail and changes nothing. -/
  | attempt
  | upload (x : Name) (session : Session) (data : List α)
  | completions
  | setCompletion (storage : ℕ) (uncertain : Bool)
  | execute (session : ℕ) (launch : Launch α)
  | copy (session : ℕ) (storage : Storage)
  /-- The point at which a future is returned, before its first poll. -/
  | lazy
  | panic

def Effect.Rep {α : Type} : Effect α → Type
  | buffer .. => Except Error Reservation
  | operation .. => Except Error Reservation
  | bind _ => Except String Unit
  | attempt => Except Error Unit
  | upload .. => Except String Storage
  | completions => ℕ → Bool
  | setCompletion .. => Unit
  | execute .. => Except String Unit
  | copy .. => Except String (List α)
  | lazy => Unit
  | panic => Empty

/-- The resource that a reply hands to the local that receives it. -/
def Effect.gain {α : Type} : (e : Effect α) → e.Rep → Frame Name Atom
  | buffer x _ _, .ok r => [(x, .reservation r)]
  | operation x _, .ok r => [(x, .reservation r)]
  | upload x _ _, .ok s => [(x, .storage s)]
  | _, _ => []

abbrev Script (α : Type) := Code (Effect.Rep (α := α)) Name

/-- Code of the facade: it returns a `Result`, with early returns. -/
abbrev Op (α : Type) := ExceptT Error (Script α)

namespace Op

variable {P : Platform} {α : Type}

def ofExcept {β : Type} (r : Except Error β) : Op α β := ExceptT.mk (.ret r)

def panic {β : Type} : Op α β := ExceptT.mk (.eff .panic fun rep => nomatch rep)

/-- Arithmetic or code that panics on `none`. -/
def ofFallible {β : Type} (r : Fallible β) : Op α β :=
  match r.run with
  | some r => ofExcept r
  | none => panic

def checked {β : Type} (r : Option β) : Op α β :=
  match r with
  | some b => pure b
  | none => panic

def buffer (x : Name) (session : Session) (bytes : ℕ) : Op α Reservation :=
  ExceptT.mk (.eff (.buffer x session.id bytes) .ret)

def operation (x : Name) (session : Session) : Op α Reservation :=
  ExceptT.mk (.eff (.operation x session.id) .ret)

/-- `Session::bind` -/
def bindDevice (session : Session) : Op α Unit :=
  ExceptT.mk (.eff (.bind session.id) fun r => .ret (mapBackend "bind device to thread" r))

def attempt : Op α Unit := ExceptT.mk (.eff .attempt .ret)

def upload (label : String) (x : Name) (session : Session) (data : List α) : Op α Storage :=
  ExceptT.mk (.eff (.upload x session data) fun r => .ret (mapBackend label r))

def completions : Op α (ℕ → Bool) := ExceptT.mk (.eff .completions fun r => .ret (.ok r))

def setCompletion (storage : ℕ) (uncertain : Bool) : Op α Unit :=
  ExceptT.mk (.eff (.setCompletion storage uncertain) fun r => .ret (.ok r))

/-- `op.sync_on(stream)` or the awaited `DeviceFuture` of `op`. -/
def execute (label : String) (session : Session) (launch : Launch α) : Op α Unit :=
  ExceptT.mk (.eff (.execute session.id launch) fun r => .ret (mapBackend label r))

def copy (session : Session) (storage : Storage) : Op α (Except String (List α)) :=
  ExceptT.mk (.eff (.copy session.id storage) fun r => .ret (.ok r))

def lazy : Op α Unit := ExceptT.mk (.eff .lazy fun r => .ret (.ok r))

end Op

/-- `Completion::ensure_ready` -/
def ensureReady (uncertain : Bool) (buffer : String) : Except Error Unit :=
  if uncertain then .error (.invalidBuffer buffer) else .ok ()

/-- `Completion::run` -/
def Completion.run {α : Type} (storage : ℕ) (operation : Op α Unit) : Op α Unit := do
  Op.setCompletion storage true
  operation
  Op.setCompletion storage false

section Validation

variable {P : Platform}

def HaloGrid2D.shape (g : HaloGrid2D P) : Shape2D P := g.storage.shape

def Field2D.shape (f : Field2D P) : Shape2D P := f.storage.shape

def DoubleGrid.shape (g : DoubleGrid P) : Shape2D P := g.current.shape

def validateShape (shape : Shape2D P) (role : String) (field : Option (Field2D P)) :
    Except Error Unit :=
  match field with
  | none => .ok ()
  | some field =>
    if field.shape ≠ shape then
      .error (.shapeMismatch role shape.toExtents field.shape.toExtents)
    else .ok ()

def validateBuffer (uncertain : ℕ → Bool) (session : Session) (shape : Shape2D P) (role : String)
    (buffer : Option (Buffer P)) : Except Error Unit :=
  match buffer with
  | none => .ok ()
  | some buffer => do
    ensureReady (uncertain buffer.tensor.storage.id) role
    if session.id ≠ buffer.session.id then .error (.contextMismatch role) else .ok ()
    let extent := if role = "source" then shape.haloed else shape.interior
    if buffer.tensor.storage.device ≠ session.device ||
        !matchesMetadata buffer.tensor.shape extent ||
        !matchesMetadata buffer.tensor.strides (extent.2, 1) then
      .error (backend "validate tensor metadata" (role ++ " shape/stride/device invariant failed"))
    else .ok ()

def validateFields (uncertain : ℕ → Bool) (session : Session) (source : HaloGrid2D P)
    (rhs output : Option (Field2D P)) : Except Error Unit := do
  let shape := source.shape
  [("rhs", rhs), ("output", output)].forM fun (role, field) => validateShape shape role field
  [("source", some source.storage), ("rhs", rhs.map (·.storage)),
    ("output", output.map (·.storage))].forM fun (role, buffer) =>
      validateBuffer uncertain session shape role buffer

def validateStep (uncertain : ℕ → Bool) (session : Session) (source : HaloGrid2D P)
    (rhs : Field2D P) (output : Option (Field2D P)) : Except Error Unit :=
  validateFields uncertain session source (some rhs) output

end Validation

/-- The fields of a buffer in declaration order, which is the order of their drops. -/
def moveBuffer (x y : Var) : List (Name × Name) :=
  [(.tensor x, .tensor y), (.charge x, .charge y)]

/-- The fields of a `DoubleGrid`. -/
def moveGrid : List (Name × Name) :=
  moveBuffer .current .current ++ moveBuffer .next .next ++ moveBuffer .rhs .rhs

namespace Gpu

variable {P : Platform} {α : Type}

/-- `Gpu::upload_reserved`, with the local `x` that holds the reservation and the local `y` that
receives the buffer. -/
def uploadReserved (session : Session) (shape : Shape2D P) (data : List α) (extent : ℕ × ℕ)
    (reservation : Reservation) (x y : Var) : Op α (Buffer P) :=
  scope [(.charge x, .charge .reservation)]
      [(.tensor .tensor, .tensor y), (.charge .reservation, .charge y)] do
    let _ ← Op.operation (.charge .operation) session
    Op.bindDevice session
    let storage ← Op.upload "upload buffer" (.tensor .tensor) session data
    Op.attempt
    let tensor ← Op.ofExcept (mapBackend "reshape uploaded buffer"
      ((Tensor.uploaded storage).reshape [extent.1, extent.2]))
    return ⟨tensor, shape, session, reservation⟩

/-- `Gpu::upload` -/
def upload (session : Session) (shape : Shape2D P) (data : List α) (extent : ℕ × ℕ) (y : Var) :
    Op α (Buffer P) :=
  scope [] (moveBuffer .storage y) do
    let bytes ← Op.checked (P.checkedMul data.length sizeOfF32)
    let reservation ← Op.buffer (.charge .reservation) session bytes
    uploadReserved session shape data extent reservation .reservation .storage

def uploadHalo (session : Session) (shape : Shape2D P) (data : List α) : Op α (HaloGrid2D P) := do
  Op.ofExcept (checkLen "source" shape.haloedLen data.length)
  return ⟨← upload session shape data shape.haloed .source⟩

def uploadField (session : Session) (shape : Shape2D P) (data : List α) : Op α (Field2D P) := do
  Op.ofExcept (checkLen "field" shape.interiorLen data.length)
  return ⟨← upload session shape data shape.interior .rhs⟩

variable [Scalar α]

/-- `Gpu::zeros`, into the local `y`. -/
def zeros (session : Session) (shape : Shape2D P) (y : Var) : Op α (Field2D P) :=
  scope [] (moveBuffer .storage y) do
    let reservation ← Op.buffer (.charge .reservation) session shape.interiorBytes
    let data := List.replicate shape.interiorLen Scalar.zero
    return ⟨← uploadReserved session shape data shape.interior reservation .reservation .storage⟩

omit [Scalar α] in
/-- The views of the source; any of the slices may fail. -/
def views (source : HaloGrid2D P) : Op α ReadViews := do
  Op.attempt
  Op.ofFallible (directionalViews source.shape source.storage.tensor)

omit [Scalar α] in
/-- `Gpu::step_into` -/
def stepInto (session : Session) (source : HaloGrid2D P) (rhs output : Field2D P)
    (params : JacobiParams α) : Op α Unit :=
  scope [] [] do
    let uncertain ← Op.completions
    Op.ofExcept (validateStep uncertain session source rhs (some output))
    let _ ← Op.operation (.charge .operation) session
    Op.bindDevice session
    let views ← views source
    Completion.run output.storage.tensor.storage.id do
      Op.execute "execute Jacobi step" session (.jacobi output.storage.tensor views
        rhs.storage.tensor params.omega params.hSquared)

omit [Scalar α] in
/-- `Gpu::laplacian_into` -/
def laplacianInto (session : Session) (source : HaloGrid2D P) (output : Field2D P)
    (params : LaplacianParams α) : Op α Unit :=
  scope [] [] do
    let uncertain ← Op.completions
    Op.ofExcept (validateFields uncertain session source none (some output))
    let _ ← Op.operation (.charge .operation) session
    Op.bindDevice session
    let views ← views source
    Completion.run output.storage.tensor.storage.id do
      Op.execute "execute Laplacian" session (.laplacian output.storage.tensor views
        params.inverseHSquared)

/-- `Gpu::step` -/
def step (session : Session) (source : HaloGrid2D P) (rhs : Field2D P) (params : JacobiParams α) :
    Op α (Field2D P) :=
  scope [] (moveBuffer .output .output) do
    let uncertain ← Op.completions
    Op.ofExcept (validateStep uncertain session source rhs none)
    let output ← zeros session source.shape .output
    stepInto session source rhs output params
    return output

/-- What the future of `step_into_async` captures, in the order of its fields. -/
def stepCapture : List (Name × Name) :=
  (.charge .operation, .charge .operation) ::
    (moveBuffer .source .source ++ moveBuffer .output .output ++ moveBuffer .rhs .rhs)

omit [Scalar α] in
/-- `Gpu::step_into_async` and the body of the future that it returns. -/
def stepIntoAsync (session : Session) (source : HaloGrid2D P) (rhs output : Field2D P)
    (params : JacobiParams α) : Op α (StepBuffers P) := do
  let _ ← scope
      (moveBuffer .output .output ++ moveBuffer .rhs .rhs ++ moveBuffer .source .source)
      stepCapture do
    let uncertain ← Op.completions
    Op.ofExcept (validateStep uncertain session source rhs (some output))
    Op.operation (.charge .operation) session
  Op.lazy
  scope stepCapture
      (moveBuffer .source .source ++ moveBuffer .rhs .rhs ++ moveBuffer .output .output) do
    rebind [(.charge .operation, .charge .operation)]
    Op.bindDevice session
    let views ← views source
    Op.execute "execute async Jacobi step" session (.jacobi output.storage.tensor views
      rhs.storage.tensor params.omega params.hSquared)
    return ⟨source, rhs, output⟩

omit [Scalar α] in
/-- `Gpu::double_grid` -/
def doubleGrid (session : Session) (shape : Shape2D P) (initial rhs : List α) :
    Op α (DoubleGrid P) :=
  scope [] moveGrid do
    Op.ofExcept (checkLen "source" shape.haloedLen initial.length)
    Op.ofExcept (checkLen "rhs" shape.interiorLen rhs.length)
    Op.ofExcept <| [("timestep row blocks", shape.haloed.1),
        ("timestep column blocks", shape.haloed.2)].forM fun (quantity, actual) =>
      if 65535 < actual then .error (.shapeLimit quantity actual 65535) else .ok ()
    let bytes ← Op.checked (P.checkedMul shape.haloedLen sizeOfF32)
    let first ← Op.buffer (.charge .first) session bytes
    let bytes ← Op.checked (P.checkedMul shape.haloedLen sizeOfF32)
    let second ← Op.buffer (.charge .second) session bytes
    let forcing ← Op.buffer (.charge .forcing) session shape.interiorBytes
    let current ← uploadReserved session shape initial shape.haloed first .first .current
    let next ← uploadReserved session shape initial shape.haloed second .second .next
    let rhs ← uploadReserved session shape rhs shape.interior forcing .forcing .rhs
    return ⟨⟨current⟩, ⟨next⟩, ⟨rhs⟩, 0⟩

end Gpu

/-- `Field2D::into_host` -/
def Field2D.intoHost {P : Platform} {α : Type} (self : Field2D P) : Op α (List α) :=
  scope (moveBuffer .self .self) [] do
    let uncertain ← Op.completions
    Op.ofExcept (ensureReady (uncertain self.storage.tensor.storage.id) "field")
    let _ ← Op.operation (.charge .operation) self.storage.session
    -- The bindings of the pattern are dropped in reverse: the reservation before the tensor.
    rebind [(.charge .self, .charge .reservation), (.tensor .self, .tensor .tensor)]
    Op.bindDevice self.storage.session
    rebind [(.tensor .tensor, .tensor .retained)]
    let result ← Op.copy self.storage.session self.storage.tensor.storage
    discard [(.tensor .retained, .tensor .retained)]
    Op.ofExcept (mapBackend "read back field" result)

namespace DoubleGrid

variable {P : Platform} {α : Type}

/-- `i32::try_from(n).unwrap_or(i32::MAX)` -/
def i32OrMax (n : ℕ) : ℤ := if n ≤ i32Max then n else i32Max

def checkCount (self : DoubleGrid P) (steps : ℕ) : Except Error Unit := do
  let _ ← okOr (backend "validate timestep count" "completed counter overflow")
    (P.checkedAdd self.completed steps)

/-- `DoubleGrid::operation` -/
def operation (self : DoubleGrid P) (params : JacobiParams α) : Launch α :=
  .timestep self.next.storage.tensor self.current.storage.tensor self.rhs.storage.tensor
    (i32OrMax self.shape.interior.1) (i32OrMax self.shape.interior.2) params.omega params.hSquared

/-- `DoubleGrid::swap_completed`; the locals declared after `self` stay newer than it. -/
def swapCompleted (self : DoubleGrid P) : Op α (DoubleGrid P) := do
  rebind ((.charge .operation, .charge .operation) ::
    (moveBuffer .next .current ++ moveBuffer .current .next ++ moveBuffer .rhs .rhs))
  let completed ← Op.checked (P.checkedAdd self.completed 1)
  return { self with current := self.next, next := self.current, completed }

/-- The loop of `advance`. -/
def steps (session : Session) (params : JacobiParams α) :
    ℕ → DoubleGrid P → Op α (DoubleGrid P)
  | 0, self => pure self
  | n + 1, self => do
    Op.execute "execute timestep" session (self.operation params)
    let self ← self.swapCompleted
    steps session params n self

/-- `DoubleGrid::advance` -/
def advance (self : DoubleGrid P) (count : ℕ) (params : JacobiParams α) : Op α (DoubleGrid P) :=
  scope moveGrid moveGrid do
    Op.ofExcept (self.checkCount count)
    let session := self.current.storage.session
    let _ ← Op.operation (.charge .operation) session
    Op.bindDevice session
    steps session params count self

/-- What the future of `advance_async` captures. -/
def capture : List (Name × Name) := (.charge .operation, .charge .operation) :: moveGrid

/-- The loop of the future: every submission binds the device again. -/
def stepsAsync (session : Session) (params : JacobiParams α) :
    ℕ → DoubleGrid P → Op α (DoubleGrid P)
  | 0, self => pure self
  | n + 1, self => do
    Op.bindDevice session
    Op.execute "execute async timestep" session (self.operation params)
    let self ← self.swapCompleted
    stepsAsync session params n self

/-- `DoubleGrid::advance_async` and the body of the future that it returns. -/
def advanceAsync (self : DoubleGrid P) (count : ℕ) (params : JacobiParams α) :
    Op α (DoubleGrid P) := do
  let session := self.current.storage.session
  let _ ← scope moveGrid capture do
    Op.ofExcept (self.checkCount count)
    Op.operation (.charge .operation) session
  Op.lazy
  scope capture moveGrid do
    rebind [(.charge .operation, .charge .operation)]
    stepsAsync session params count self

/-- `DoubleGrid::observe` -/
def observe (self : DoubleGrid P) : Op α (DoubleGrid P × List α) :=
  scope moveGrid moveGrid do
    -- The bindings of the pattern are dropped in reverse: the reservation before the tensor.
    rebind [(.charge .current, .charge .reservation), (.tensor .current, .tensor .tensor)]
    let buffer := self.current.storage
    let _ ← Op.operation (.charge .operation) buffer.session
    Op.bindDevice buffer.session
    rebind [(.tensor .tensor, .tensor .retained)]
    let result ← Op.copy buffer.session buffer.tensor.storage
    let host ← Op.ofExcept (mapBackend "observe timesteps" result)
    Op.attempt
    rebind [(.tensor .retained, .tensor .current), (.charge .reservation, .charge .current)]
    return (self, host)

end DoubleGrid
end Gudra
