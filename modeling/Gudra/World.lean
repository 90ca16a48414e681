import Gudra.Facade
import Gudra.TiledStep

/-! Runs of the whole API: sessions, owners, calls in progress, futures and kernels in flight. -/
namespace Gudra

open Scope Interleave

variable {P : Platform} {α : Type}

/-- A call of the API, over the types of its references to sessions and owners. -/
inductive Call (S H F G : Type) (P : Platform) (α : Type) where
  | uploadHalo (session : S) (shape : Shape2D P) (data : List α)
  | uploadField (session : S) (shape : Shape2D P) (data : List α)
  | zeros (session : S) (shape : Shape2D P)
  | step (session : S) (source : H) (rhs : F) (params : JacobiParams α)
  | stepInto (session : S) (source : H) (rhs output : F) (params : JacobiParams α)
  | laplacianInto (session : S) (source : H) (output : F) (params : LaplacianParams α)
  | stepIntoAsync (session : S) (source : H) (rhs output : F) (params : JacobiParams α)
  | doubleGrid (session : S) (shape : Shape2D P) (initial rhs : List α)
  | advance (grid : G) (count : ℕ) (params : JacobiParams α)
  | advanceAsync (grid : G) (count : ℕ) (params : JacobiParams α)
  | observe (grid : G)
  | intoHost (field : F)

/-- A call as the program writes it, with names for what it holds. -/
abbrev Invocation (P : Platform) (α : Type) := Call ℕ ℕ ℕ ℕ P α

/-- A call with the values that its names stand for. -/
abbrev Request (P : Platform) (α : Type) :=
  Call Session (HaloGrid2D P) (Field2D P) (DoubleGrid P) P α

inductive Owner (P : Platform) where
  | halo (g : HaloGrid2D P)
  | field (f : Field2D P)
  | grid (g : DoubleGrid P)
deriving DecidableEq

inductive Outcome (P : Platform) (α : Type) where
  | unit
  | halo (g : HaloGrid2D P)
  | field (f : Field2D P)
  | buffers (b : StepBuffers P)
  | grid (g : DoubleGrid P)
  | observed (g : DoubleGrid P) (data : List α)
  | host (data : List α)
deriving DecidableEq

def Buffer.entries (b : Buffer P) (x : Var) : Frame Name Atom :=
  [(.tensor x, .storage b.tensor.storage), (.charge x, .reservation b.reservation)]

def DoubleGrid.entries (g : DoubleGrid P) : Frame Name Atom :=
  g.current.storage.entries .current ++ g.next.storage.entries .next ++ g.rhs.storage.entries .rhs

def DoubleGrid.buffers (g : DoubleGrid P) : List (Buffer P) :=
  [g.current.storage, g.next.storage, g.rhs.storage]

namespace Owner

/-- The buffers of an owner in declaration order. -/
def buffers : Owner P → List (Buffer P)
  | halo g => [g.storage]
  | field f => [f.storage]
  | grid g => g.buffers

def entries : Owner P → Frame Name Atom
  | halo g => g.storage.entries .self
  | field f => f.storage.entries .self
  | grid g => g.entries

end Owner

namespace Outcome

/-- The owners that a result hands to the caller. -/
def owners : Outcome P α → List (Owner P)
  | unit => []
  | halo g => [.halo g]
  | field f => [.field f]
  | buffers b => [.halo b.source, .field b.rhs, .field b.output]
  | grid g => [.grid g]
  | observed g _ => [.grid g]
  | host _ => []

def stored (o : Outcome P α) : List (Buffer P) := o.owners.flatMap Owner.buffers

end Outcome

namespace Call

variable {S H F G S' H' F' G' : Type}

/-- Replaces the references of a call by what they stand for. -/
def resolve (s : S → Option S') (h : H → Option H') (f : F → Option F') (g : G → Option G') :
    Call S H F G P α → Option (Call S' H' F' G' P α)
  | uploadHalo session shape data => return uploadHalo (← s session) shape data
  | uploadField session shape data => return uploadField (← s session) shape data
  | zeros session shape => return zeros (← s session) shape
  | step session source rhs params => return step (← s session) (← h source) (← f rhs) params
  | stepInto session source rhs output params =>
    return stepInto (← s session) (← h source) (← f rhs) (← f output) params
  | laplacianInto session source output params =>
    return laplacianInto (← s session) (← h source) (← f output) params
  | stepIntoAsync session source rhs output params =>
    return stepIntoAsync (← s session) (← h source) (← f rhs) (← f output) params
  | doubleGrid session shape initial rhs => return doubleGrid (← s session) shape initial rhs
  | advance grid count params => return advance (← g grid) count params
  | advanceAsync grid count params => return advanceAsync (← g grid) count params
  | observe grid => return observe (← g grid)
  | intoHost field => return intoHost (← f field)

/-- The call returns a future. -/
def isAsync : Call S H F G P α → Bool
  | stepIntoAsync .. | advanceAsync .. => true
  | _ => false

end Call

namespace Invocation

/-- The arguments that the signature takes by value. -/
def moved : Invocation P α → List ℕ
  | .stepIntoAsync _ source rhs output _ => [source, rhs, output]
  | .advance grid .. | .advanceAsync grid .. | .observe grid => [grid]
  | .intoHost field => [field]
  | _ => []

/-- The arguments behind a shared reference. -/
def shared : Invocation P α → List ℕ
  | .step _ source rhs _ | .stepInto _ source rhs _ _ => [source, rhs]
  | .laplacianInto _ source _ _ => [source]
  | _ => []

/-- The arguments behind a unique reference. -/
def lent : Invocation P α → List ℕ
  | .stepInto _ _ _ output _ | .laplacianInto _ _ output _ => [output]
  | _ => []

end Invocation

namespace Request

def owned : Request P α → List (Owner P)
  | .stepIntoAsync _ source rhs output _ => [.halo source, .field rhs, .field output]
  | .advance grid .. | .advanceAsync grid .. | .observe grid => [.grid grid]
  | .intoHost field => [.field field]
  | _ => []

/-- The moved arguments as the locals that own them. -/
def entries : Request P α → Frame Name Atom
  | .stepIntoAsync _ source rhs output _ =>
    source.storage.entries .source ++ rhs.storage.entries .rhs ++ output.storage.entries .output
  | .advance grid .. | .advanceAsync grid .. | .observe grid => grid.entries
  | .intoHost field => field.storage.entries .self
  | _ => []

/-- The buffers behind a shared reference. -/
def shared : Request P α → List (Buffer P)
  | .step _ source rhs _ | .stepInto _ source rhs _ _ => [source.storage, rhs.storage]
  | .laplacianInto _ source _ _ => [source.storage]
  | _ => []

/-- The buffers behind a unique reference. -/
def lent : Request P α → List (Buffer P)
  | .stepInto _ _ _ output _ | .laplacianInto _ _ output _ => [output.storage]
  | _ => []

def borrowed (r : Request P α) : List (Buffer P) := r.shared ++ r.lent

/-- Every buffer that the call can reach. -/
def buffers (r : Request P α) : List (Buffer P) := r.owned.flatMap Owner.buffers ++ r.borrowed

/-- The body of the call. -/
def code [Scalar α] : Request P α → Script α (Except Error (Outcome P α))
  | .uploadHalo session shape data => ExceptT.run do
    return .halo (← Gpu.uploadHalo session shape data)
  | .uploadField session shape data => ExceptT.run do
    return .field (← Gpu.uploadField session shape data)
  | .zeros session shape => ExceptT.run do
    return .field (← Gpu.zeros session shape .output)
  | .step session source rhs params => ExceptT.run do
    return .field (← Gpu.step session source rhs params)
  | .stepInto session source rhs output params => ExceptT.run do
    Gpu.stepInto session source rhs output params
    return .unit
  | .laplacianInto session source output params => ExceptT.run do
    Gpu.laplacianInto session source output params
    return .unit
  | .stepIntoAsync session source rhs output params => ExceptT.run do
    return .buffers (← Gpu.stepIntoAsync session source rhs output params)
  | .doubleGrid session shape initial rhs => ExceptT.run do
    return .grid (← Gpu.doubleGrid session shape initial rhs)
  | .advance grid count params => ExceptT.run do
    return .grid (← grid.advance count params)
  | .advanceAsync grid count params => ExceptT.run do
    return .grid (← grid.advanceAsync count params)
  | .observe grid => ExceptT.run do
    let (grid, data) ← grid.observe
    return .observed grid data
  | .intoHost field => ExceptT.run do
    return .host (← field.intoHost)

end Request

/-- Where a task stands. A task is a call on some thread, or a future after its call returned. -/
inductive Control (P : Platform) (α : Type) where
  | active (c : Script α (Except Error (Outcome P α)))
  /-- An unfinished future between two polls. -/
  | suspended (c : Script α (Except Error (Outcome P α)))
  /-- A future given to `mem::forget`. -/
  | forgotten (c : Script α (Except Error (Outcome P α)))
  /-- A panic, or the drop of a future or an owner: all scopes are dropped. -/
  | unwinding
  | finished

structure Task (P : Platform) (α : Type) where
  /-- `none` for the drop of an owner. -/
  request : Option (Request P α)
  frames : Frames Name Atom
  control : Control P α
  /-- The kernel that the task waits for. -/
  pending : Option ℕ
  /-- The owners that the call borrows, with the buffer of each. -/
  shared : List (ℕ × Buffer P)
  lent : List (ℕ × Buffer P)

inductive FlightState where
  | running
  | completed
  | failed
deriving DecidableEq, Repr

/-- A submitted kernel. Its blocks access memory in any order and between any other steps, so every
order of the streams is among the runs. -/
structure Flight (α : Type) where
  task : ℕ
  launch : Launch α
  progs : List (Prog Addr α Unit)
  state : FlightState

/-- `args` are the flags and contents of the buffers of a call; `stored` is what its result
contains. -/
inductive Event (P : Platform) (α : Type) where
  | called (t : ℕ) (r : Request P α) (args : List (Bool × List α))
  | reserved (t session : ℕ) (result : Except Error Reservation)
  /-- The future is handed to the caller. -/
  | created (t : ℕ)
  /-- The task reached the backend. -/
  | device (t : ℕ) (succeeded : Bool)
  | uploaded (t : ℕ) (s : Storage) (data : List α)
  | submitted (t : ℕ) (l : Launch α)
  | completed (t : ℕ) (l : Launch α)
  | failed (t : ℕ) (l : Launch α)
  | polled (t : ℕ)
  | cancelled (t : ℕ)
  | forgotten (t : ℕ)
  | returned (t : ℕ) (r : Request P α) (result : Except Error (Outcome P α))
      (args : List (Bool × List α)) (stored : List (List α))

def Event.task : Event P α → ℕ
  | called t .. | reserved t .. | created t | device t _ | uploaded t .. | submitted t _
  | completed t _ | failed t _ | polled t | cancelled t | forgotten t | returned t .. => t

structure World (P : Platform) (α : Type) where
  /-- The device and the budget of each session. -/
  sessions : List (ℕ × Budget P)
  memory : Addr → α
  /-- The `completion` flags. -/
  uncertain : ℕ → Bool
  owners : List (ℕ × Owner P)
  /-- Owners given to `mem::forget`. -/
  leaked : List (Owner P)
  tasks : List (Task P α)
  flights : List (Flight α)
  nextStorage : ℕ
  nextOwner : ℕ
  /-- What happened, newest first. -/
  log : List (Event P α)

/-- How the environment answers an effect; a failure leaves arbitrary contents in an output. -/
inductive Choice (α : Type) where
  | ok
  | fail (operation message : String) (garbage : ℕ → α)
  | unwind (garbage : ℕ → α)

inductive Input (P : Platform) (α : Type) where
  | newGpu (device : ℕ) (limits : ResourceLimits P)
  | call (c : Invocation P α)
  /-- The next move of a task. -/
  | tick (t : ℕ) (choice : Choice α)
  | poll (t : ℕ)
  /-- Drops a future. -/
  | cancel (t : ℕ)
  | forget (t : ℕ)
  | dropOwner (h : ℕ)
  | forgetOwner (h : ℕ)
  /-- The next access of one block of a running kernel. -/
  | access (flight block : ℕ)
  | finish (flight : ℕ)

namespace World

def init (P : Platform) (memory : Addr → α) : World P α where
  sessions := []
  memory
  uncertain := fun _ => false
  owners := []
  leaked := []
  tasks := []
  flights := []
  nextStorage := 0
  nextOwner := 0
  log := []

variable (w : World P α)

def setTask (i : ℕ) (t : Task P α) : World P α := { w with tasks := w.tasks.set i t }

def setFlight (n : ℕ) (f : Flight α) : World P α := { w with flights := w.flights.set n f }

def record (e : Event P α) : World P α := { w with log := e :: w.log }

def setBudget (s : ℕ) (b : Budget P) : World P α :=
  { w with sessions := w.sessions.modify s fun (device, _) => (device, b) }

def budget? (s : ℕ) : Option (Budget P) := w.sessions[s]?.map Prod.snd

/-- The flags and contents of buffers. -/
def snapshot (bs : List (Buffer P)) : List (Bool × List α) :=
  bs.map fun b => (w.uncertain b.tensor.storage.id, contents w.memory b.tensor.storage)

/-- Arbitrary contents of one allocation. -/
def scribble (id : ℕ) (data : ℕ → α) : World P α :=
  { w with memory := fun a => if a.1 = id then data a.2 else w.memory a }

/-- The effect of a drop; a panic in it would leave the budget unchanged. -/
def release : Option Atom → World P α
  | some (.reservation r) =>
    match w.budget? r.budget with
    | some b => w.setBudget r.budget ((b.release r).getD b)
    | none => w
  | _ => w

/-- A critical section on one budget. -/
def reserve (i s : ℕ) (section_ : Budget P → Locked Reservation) :
    Option (Except Error Reservation × World P α) := do
  let b ← w.budget? s
  let (r, b) ← b.reserve (section_ b)
  return (r, (w.setBudget s b).record (.reserved i s r))

/-- The reply to an effect other than an execution; `none` is a panic. -/
def perform (i : ℕ) (choice : Choice α) : (e : Effect α) → Option (e.Rep × World P α)
  | .buffer _ s bytes => w.reserve i s fun b => Budget.buffer b.limits s bytes
  | .operation _ s => w.reserve i s fun b => Budget.operation b.limits s
  | .bind _ =>
    match choice with
    | .ok => some (.ok (), w.record (.device i true))
    | .fail _ message _ => some (.error message, w.record (.device i false))
    | .unwind _ => none
  | .attempt =>
    match choice with
    | .ok => some (.ok (), w)
    | .fail operation message _ => some (.error (backend operation message), w)
    | .unwind _ => none
  | .upload _ session data =>
    match choice with
    | .ok =>
      let s : Storage := ⟨w.nextStorage, session.device, session.id, data.length⟩
      some (.ok s, { w with
        nextStorage := w.nextStorage + 1
        uncertain := Function.update w.uncertain s.id false
        memory := fun a => if a.1 = s.id then data.getD a.2 (w.memory a) else w.memory a
        log := .uploaded i s data :: .device i true :: w.log })
    | .fail _ message _ => some (.error message, w.record (.device i false))
    | .unwind _ => none
  | .completions => some (w.uncertain, w)
  | .setCompletion id uncertain =>
    some ((), { w with uncertain := Function.update w.uncertain id uncertain })
  | .copy _ s =>
    match choice with
    | .ok => some (.ok (contents w.memory s), w.record (.device i true))
    | .fail _ message _ => some (.error message, w.record (.device i false))
    | .unwind _ => none
  | .execute .. | .lazy | .panic => none

/-- The execution of task `i` ends without success. -/
def failLaunch (i : ℕ) (l : Launch α) (garbage : ℕ → α) : World P α :=
  (w.scribble l.output.storage.id garbage).record (.failed i l)

/-- The task resumes with a failed execution, or unwinds. -/
def resumeFailed (i : ℕ) (t : Task P α) (l : Launch α)
    (k : Except String Unit → Script α (Except Error (Outcome P α))) : Choice α → World P α
  | .ok => w
  | .fail _ message garbage => (w.failLaunch i l garbage).setTask i
      { t with pending := none, control := .active (k (.error message)) }
  | .unwind garbage => (w.failLaunch i l garbage).setTask i
      { t with pending := none, control := .unwinding }

variable [Scalar α]

/-- A kernel is submitted, or the submission fails. -/
def submit (i : ℕ) (t : Task P α) (l : Launch α)
    (k : Except String Unit → Script α (Except Error (Outcome P α))) : Choice α → World P α
  | .ok => { (w.setTask i { t with pending := some w.flights.length }) with
      flights := w.flights ++ [⟨i, l, l.blocks, .running⟩]
      log := .submitted i l :: .device i true :: w.log }
  | choice => (w.record (.device i true)).resumeFailed i t l k choice

omit [Scalar α] in
/-- The task looks at the kernel that it waits for: it may still be running, which returns
`Pending` to the poll of a future. -/
def await (i : ℕ) (t : Task P α) (n : ℕ) (s : ℕ) (l : Launch α)
    (k : Except String Unit → Script α (Except Error (Outcome P α))) (choice : Choice α) :
    World P α :=
  match w.flights[n]? with
  | none => w
  | some f =>
    match choice with
    | .ok =>
      match f.state with
      | .completed => w.setTask i { t with pending := none, control := .active (k (.ok ())) }
      | _ =>
        if t.request.any Call.isAsync then
          w.setTask i { t with control := .suspended (.eff (.execute s l) k) }
        else w
    | choice => (w.setFlight n { f with state := .failed }).resumeFailed i t l k choice

/-- The next effect of task `i`. -/
def effect (i : ℕ) (t : Task P α) (choice : Choice α) :
    (e : Effect α) → (e.Rep → Script α (Except Error (Outcome P α))) → World P α
  | .lazy, k => (w.record (.created i)).setTask i { t with control := .suspended (k ()) }
  | .execute s l, k =>
    match t.pending with
    | none => w.submit i t l k choice
    | some n => w.await i t n s l k choice
  | e, k =>
    match w.perform i choice e with
    | none => w.setTask i { t with control := .unwinding }
    | some (rep, w) =>
      w.setTask i { t with frames := Frames.push (e.gain rep) t.frames, control := .active (k rep) }

omit [Scalar α] in
/-- New owners get fresh names. -/
def addOwners (owners : List (Owner P)) : World P α :=
  { w with
    owners := w.owners ++ owners.mapIdx fun i o => (w.nextOwner + i, o)
    nextOwner := w.nextOwner + owners.length }

omit [Scalar α] in
/-- The call returns, or the future is ready: its result moves to the caller. -/
def complete (i : ℕ) (t : Task P α) (result : Except Error (Outcome P α)) : World P α :=
  let outcome := result.toOption
  let w := match t.request with
    | some r => w.record (.returned i r result (w.snapshot r.borrowed)
        ((w.snapshot (outcome.elim [] Outcome.stored)).map Prod.snd))
    | none => w
  (w.addOwners (outcome.elim [] Outcome.owners)).setTask i
    { t with frames := [], control := .finished, shared := [], lent := [] }

omit [Scalar α] in
/-- A scope is dropped entry by entry, after the kernel that may still use it has ended. -/
def unwindTask (i : ℕ) (t : Task P α) (choice : Choice α) : World P α :=
  match t.pending with
  | some n =>
    match w.flights[n]? with
    | none => w
    | some f =>
      match choice with
      | .ok => if f.state = .completed then w.setTask i { t with pending := none } else w
      | .fail _ _ garbage | .unwind garbage =>
        ((w.setFlight n { f with state := .failed }).failLaunch i f.launch garbage).setTask i
          { t with pending := none }
  | none =>
    match t.frames.unwind with
    | some (d, frames) => (w.release d).setTask i { t with frames }
    | none => w.setTask i { t with control := .finished, shared := [], lent := [] }

def tick (i : ℕ) (choice : Choice α) : World P α :=
  match w.tasks[i]? with
  | none => w
  | some t =>
    match t.control with
    | .active c =>
      match c.internal t.frames with
      | some (d, c, frames) => (w.release d).setTask i { t with frames, control := .active c }
      | none =>
        match c with
        | .ret result => w.complete i t result
        | .eff e k => w.effect i t choice e k
        | _ => w
    | .unwinding => w.unwindTask i t choice
    | _ => w

section Owners

omit [Scalar α]

def owner? (h : ℕ) : Option (Owner P) := (w.owners.find? (·.1 = h)).map Prod.snd

def halo? (h : ℕ) : Option (HaloGrid2D P) :=
  match w.owner? h with
  | some (.halo g) => some g
  | _ => none

def field? (h : ℕ) : Option (Field2D P) :=
  match w.owner? h with
  | some (.field f) => some f
  | _ => none

def grid? (h : ℕ) : Option (DoubleGrid P) :=
  match w.owner? h with
  | some (.grid g) => some g
  | _ => none

def session? (s : ℕ) : Option Session := w.sessions[s]?.map fun (device, _) => ⟨s, device⟩

/-- The owners behind a shared reference of some call. -/
def shared : List ℕ := w.tasks.flatMap fun t => t.shared.map Prod.fst

/-- The owners behind a unique reference of some call. -/
def lent : List ℕ := w.tasks.flatMap fun t => t.lent.map Prod.fst

def borrow (hs : List ℕ) : List (ℕ × Buffer P) :=
  hs.filterMap fun h => (w.owner? h).bind fun o => o.buffers.head?.map fun b => (h, b)

/-- Rust's rules: what is moved or uniquely borrowed has no other use, and what is shared is not
uniquely borrowed. -/
def Permitted (c : Invocation P α) : Prop :=
  (c.moved ++ c.lent).Nodup ∧ (∀ h ∈ c.moved ++ c.lent, h ∉ w.shared ∧ h ∉ w.lent ∧ h ∉ c.shared) ∧
    ∀ h ∈ c.shared, h ∉ w.lent

instance (c : Invocation P α) : Decidable (w.Permitted c) := by
  unfold Permitted
  infer_instance

/-- The values that the names of a call stand for. -/
def resolve (c : Invocation P α) : Option (Request P α) :=
  Call.resolve w.session? w.halo? w.field? w.grid? c

def removeOwners (hs : List ℕ) : World P α :=
  { w with owners := w.owners.filter fun (h, _) => h ∉ hs }

def addTask (t : Task P α) : World P α := { w with tasks := w.tasks ++ [t] }

end Owners

/-- A call starts: its moved arguments leave their owner, the others are borrowed until it ends. -/
def call (c : Invocation P α) : World P α :=
  match w.resolve c with
  | none => w
  | some r =>
    if w.Permitted c then
      ((w.record (.called w.tasks.length r (w.snapshot r.buffers))).removeOwners c.moved).addTask
        { request := some r
          frames := [r.entries]
          control := .active r.code
          pending := none
          shared := w.borrow c.shared
          lent := w.borrow c.lent }
    else w

omit [Scalar α] in
/-- An owner goes out of scope. -/
def dropOwner (h : ℕ) : World P α :=
  match w.owner? h with
  | none => w
  | some o =>
    if h ∉ w.shared ∧ h ∉ w.lent then
      (w.removeOwners [h]).addTask ⟨none, [o.entries], .unwinding, none, [], []⟩
    else w

omit [Scalar α] in
def forgetOwner (h : ℕ) : World P α :=
  match w.owner? h with
  | none => w
  | some o =>
    if h ∉ w.shared ∧ h ∉ w.lent then { w.removeOwners [h] with leaked := o :: w.leaked } else w

omit [Scalar α] in
/-- Polls, drops or forgets a future. -/
def resume (i : ℕ) (event : Event P α)
    (control : Script α (Except Error (Outcome P α)) → Control P α) : World P α :=
  match w.tasks[i]? with
  | none => w
  | some t =>
    match t.control with
    | .suspended c => (w.record event).setTask i { t with control := control c }
    | _ => w

omit [Scalar α] in
/-- One access of block `b`. -/
def access (n b : ℕ) : World P α :=
  match w.flights[n]? with
  | none => w
  | some f =>
    match f.state, f.progs[b]?.bind fun p => p.step w.memory with
    | .running, some (_, memory, p) =>
      { (w.setFlight n { f with progs := f.progs.set b p }) with memory }
    | _, _ => w

omit [Scalar α] in
/-- The kernel has made all its accesses. -/
def finish (n : ℕ) : World P α :=
  match w.flights[n]? with
  | none => w
  | some f =>
    if f.state = .running ∧ f.progs.all Prog.finished = true then
      (w.setFlight n { f with state := .completed }).record (.completed f.task f.launch)
    else w

def step : Input P α → World P α
  | .newGpu device limits => { w with sessions := w.sessions ++ [(device, Budget.new limits)] }
  | .call c => w.call c
  | .tick t choice => w.tick t choice
  | .poll t => w.resume t (.polled t) .active
  | .cancel t => w.resume t (.cancelled t) fun _ => .unwinding
  | .forget t => w.resume t (.forgotten t) .forgotten
  | .dropOwner h => w.dropOwner h
  | .forgetOwner h => w.forgetOwner h
  | .access n b => w.access n b
  | .finish n => w.finish n

def run (inputs : List (Input P α)) : World P α := inputs.foldl (fun w i => w.step i) w

end World
end Gudra
