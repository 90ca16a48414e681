import Gudra.SlotTable

/-! Futures of device operations, their streams and the reactor that completes them. -/
namespace Gudra.Reactor

inductive DeviceError where
  | driver (code : ℕ)
  | context (device : ℕ) (message : String)
  | kernelCache (message : String)
  | scheduling (message : String)
  | launch (message : String)
  | internal (message : String)
  | anyhow (message : String)
deriving DecidableEq

inductive DeviceFutureState where
  | failed
  | idle
  | executing
  | complete
deriving DecidableEq

/-- `StreamCallbackState`. -/
structure StreamCallbackState where
  waker : Option ℕ
  complete : Bool

inductive StreamHealth where
  | capturing
  | busy
  | idle
  | faulted (code : ℕ)

def StreamHealth.isFaulted : StreamHealth → Bool
  | .faulted _ => true
  | .capturing | .busy | .idle => false

/-- What a stream executes in order, each with the future that submitted it. -/
inductive StreamOp where
  | work (i : ℕ)
  /-- `cuStreamWriteValue32` of 1 into a flag. -/
  | write (slot i : ℕ)
  /-- A host function that signals: before the store to `complete`. -/
  | signal (i : ℕ)
  /-- The same before the wake. -/
  | wake (i : ℕ)
deriving DecidableEq

structure Stream where
  queue : List StreamOp
  /-- What captures have recorded: none of it is executed. -/
  graph : List StreamOp
  /-- The sticky error of its context. -/
  fault : Option ℕ
  capturing : Bool
  /-- A capture has begun on it, now or before. -/
  captured : Bool
  begun : capturing = true → captured = true
  recorded : captured = false → graph = []

namespace Stream

variable (s : Stream)

def new : Stream := ⟨[], [], none, false, false, id, fun _ => rfl⟩

/-- What was submitted to the stream and is not executed. -/
def ops : List StreamOp := s.queue ++ s.graph

/-- The driver may refuse to say how the stream stands. -/
def Broken : Prop := s.fault.isSome ∨ s.captured = true

/-- A capturing stream does not execute what is submitted to it, but records it. -/
def submit (op : StreamOp) : Stream :=
  if h : s.capturing = true then
    { s with
      graph := s.graph ++ [op]
      recorded := fun hnot => absurd (s.begun h) (Bool.eq_false_iff.mp hnot) }
  else { s with queue := s.queue ++ [op] }

/-- `cuStreamBeginCapture` and `cuStreamEndCapture`. -/
def capture (capturing : Bool) : Stream :=
  { s with
    capturing
    captured := s.captured || capturing
    begun := fun h => Bool.or_eq_true_iff.mpr (.inr h)
    recorded := fun h => s.recorded (Bool.or_eq_false_iff.mp h).1 }

/-- `cuStreamIsCapturing`. -/
def isCapturing : Except ℕ Bool :=
  match s.fault with
  | some code => .error code
  | none => .ok s.capturing

/-- `CUDA_ERROR_STREAM_CAPTURE_UNSUPPORTED`. -/
def captureUnsupported : ℕ := 900

/-- `cuStreamQuery`. -/
def query : Except ℕ Bool :=
  match s.fault with
  | some code => .error code
  | none => if s.capturing then .error captureUnsupported else .ok s.queue.isEmpty

/-- `probe_stream` up to its second call, which `none` leaves to come. -/
def probe : Option StreamHealth :=
  match s.isCapturing with
  | .error code => some (.faulted code)
  | .ok true => some .capturing
  | .ok false => none

/-- The second call of `probe_stream`. -/
def health : StreamHealth :=
  match s.query with
  | .ok true => .idle
  | .ok false => .busy
  | .error code => .faulted code

/-- `cuStreamSynchronize` for what future `i` submitted; `ok false` still waits. -/
def synchronize (i : ℕ) : Except ℕ Bool :=
  match s.fault with
  | some code => .error code
  | none =>
    if s.capturing then .error captureUnsupported else .ok (decide (.work i ∉ s.queue))

end Stream

/-- Where a call to a future stands: before the access that the name says. -/
inductive Place (O : Type) where
  | rest
  /-- `poll` of an idle future: `waker.register`. -/
  | register
  | execute
  /-- The error path of `execute`, with the owners that it quarantined. -/
  | drain (e : DeviceError) (owners : List O)
  | spin
  /-- `register_callback` by the reactor. -/
  | claim
  | reset (slot : ℕ)
  | write (slot : ℕ)
  | release (slot : ℕ)
  | payload (slot : ℕ)
  | count (slot : ℕ)
  | arm (slot : ℕ) (wasIdle : Bool)
  | unpark
  /-- `register_callback` by a host function. -/
  | host
  /-- `poll` of an executing future. -/
  | check
  /-- `probe_stream`: whether the stream is capturing. -/
  | probe
  /-- `probe_stream`: the query. -/
  | query
  | reregister
  | recheck
  /-- `drop`: bind the device, and whether the stream is capturing. -/
  | bind
  /-- `drop`: the query. -/
  | dropQuery
  | sync
  | dropped

structure DeviceFuture (T O : Type) where
  deviceOperation : Bool
  executionContext : Option ℕ
  result : Option T
  error : Option DeviceError
  state : DeviceFutureState
  callbackState : Bool
  completionPending : Bool
  quarantined : Option (List O)
  /-- The waker of the last poll. -/
  task : ℕ
  place : Place O

namespace DeviceFuture

variable {T O : Type}

def new : DeviceFuture T O where
  deviceOperation := false
  executionContext := none
  result := none
  error := none
  state := .idle
  callbackState := false
  completionPending := false
  quarantined := none
  task := 0
  place := .rest

def scheduled (stream : ℕ) : DeviceFuture T O :=
  { new with deviceOperation := true, executionContext := some stream }

def failed (e : DeviceError) : DeviceFuture T O := { new with state := .failed, error := some e }

/-- The stream of a future that has one. -/
def stream (f : DeviceFuture T O) : ℕ := f.executionContext.getD 0

end DeviceFuture

/-- The payload of a slot: the callback state of a future, and its stream. -/
structure Registration where
  waker : ℕ
  stream : ℕ
deriving DecidableEq

inductive Event (T O : Type) where
  | polled (i waker : ℕ)
  | submitted (i : ℕ)
  | worked (i : ℕ)
  | armed (i : ℕ)
  /-- The callback of a future is taken out of the reactor's or the stream's hands. -/
  | handled (i : ℕ)
  | woken (i waker : ℕ)
  | pending (i : ℕ)
  | ready (i : ℕ) (result : Except DeviceError T)
  /-- The owners that the future kept go to the deallocator. -/
  | released (i : ℕ) (owners : List O)
  | panicked (i : ℕ)

/-- The state of the process: futures by number, each with its callback state. -/
structure Process (T O : Type) where
  table : SlotTable Registration
  scanner : Scanner Registration
  /-- The `u32` of `scan_loop`. -/
  idlePasses : ℕ
  /-- The park token of the scanner's thread. -/
  token : Bool
  streams : ℕ → Stream
  callbacks : ℕ → StreamCallbackState
  futures : List (DeviceFuture T O)
  aborted : Bool
  log : List (Event T O)

/-- What the driver and the environment answer to a future. -/
structure Answer (T O : Type) where
  /-- The result of `execute`, and the owners that it dropped. -/
  executed : Except DeviceError T
  owners : List O
  /-- A failing `execute` had submitted some work. -/
  submitted : Bool
  /-- The spin budget is not zero. -/
  budget : Bool
  deadline : Bool
  /-- `CUDA_ASYNC_HOST_SYNC` asks for a host function. -/
  hostSync : Bool
  /-- The reactor is there. -/
  reactor : Bool
  /-- The driver refuses the call. -/
  refused : Option ℕ

/-- What the clock and the environment answer to the scanner. -/
structure Clock where
  /-- `bind_to_thread` succeeds. -/
  bound : Bool
  /-- The last probe is long ago. -/
  elapsed : Bool
  /-- `park` returns on its own. -/
  spurious : Bool

def spinPasses : ℕ := 10000

namespace Process

variable {T O : Type} (c : Process T O)

def init (numSlots : ℕ) : Process T O where
  table := .new numSlots
  scanner := .start
  idlePasses := 0
  token := false
  streams _ := .new
  callbacks _ := ⟨none, false⟩
  futures := []
  aborted := false
  log := []

def record (e : Event T O) : Process T O := { c with log := e :: c.log }

def setFuture (i : ℕ) (f : DeviceFuture T O) : Process T O :=
  { c with futures := c.futures.set i f }

def setTable (table : SlotTable Registration) : Process T O := { c with table }

/-- `fail_stop`. -/
def abort : Process T O := { c with aborted := true }

def setStream (s : ℕ) (stream : Stream) : Process T O :=
  { c with streams := Function.update c.streams s stream }

def setQueue (s : ℕ) (queue : List StreamOp) : Process T O :=
  c.setStream s { c.streams s with queue }

def submit (s : ℕ) (op : StreamOp) : Process T O := c.setStream s ((c.streams s).submit op)

def setCallback (i : ℕ) (callback : StreamCallbackState) : Process T O :=
  { c with callbacks := Function.update c.callbacks i callback }

/-- `AtomicWaker::register`. -/
def register (i w : ℕ) : Process T O := c.setCallback i { c.callbacks i with waker := some w }

def complete (i : ℕ) : Process T O := c.setCallback i { c.callbacks i with complete := true }

/-- `AtomicWaker::wake`. -/
def wake (i : ℕ) : Process T O :=
  match (c.callbacks i).waker with
  | none => c
  | some w => (c.setCallback i { c.callbacks i with waker := none }).record (.woken i w)

section Future

variable (i : ℕ) (f : DeviceFuture T O)

/-- `poll` returns an error; the future is complete. -/
def fail (e : DeviceError) : Process T O :=
  (c.setFuture i { f with state := .complete, place := .rest }).record (.ready i (.error e))

/-- `poll` returns `Pending`. -/
def suspend : Process T O :=
  (c.setFuture i { f with state := .executing, place := .rest }).record (.pending i)

/-- `mark_completion_proven`. -/
def release : Process T O :=
  match f.quarantined with
  | some owners => c.record (.released i owners)
  | none => c

/-- `poll` has proved completion and hands out the result. -/
def deliver : Process T O :=
  let f := { f with state := .complete, completionPending := false, quarantined := none, place := .rest }
  match f.result with
  | some v => (c.setFuture i { f with result := none }).record (.ready i (.ok v))
  | none => (c.setFuture i f).record (.panicked i)

/-- `register_callback` starts. -/
def registerCallback (a : Answer T O) : Process T O :=
  c.setFuture i { f with place := if a.hostSync then .host else .claim }

/-- `execute`. -/
def execute (a : Answer T O) : Process T O :=
  match f.executionContext, f.deviceOperation with
  | none, _ => c.fail i f
      (.internal "Cannot execute future without setting stream on which to execute.")
  | some _, false => c.fail i f
      (.internal "Unable to execute future: No operation has been set.")
  | some s, true =>
    let f := { f with deviceOperation := false, completionPending := true }
    match a.executed with
    | .ok v => ((c.submit s (.work i)).record (.submitted i)).setFuture i
        { f with result := some v, quarantined := some a.owners, place := .spin }
    | .error e =>
      let c := if a.submitted then (c.submit s (.work i)).record (.submitted i) else c
      c.setFuture i { f with place := .drain e a.owners }

/-- The error path of `execute` waits for the stream. -/
def drain (s : ℕ) (e : DeviceError) (owners : List O) : Process T O :=
  match (c.streams s).synchronize i with
  | .error _ => c.abort
  | .ok false => c
  | .ok true => (c.record (.released i owners)).fail i { f with completionPending := false } e

/-- One round of the inline spin. -/
def spin (s : ℕ) (a : Answer T O) : Process T O :=
  if a.budget then
    match (c.streams s).query with
    | .ok true => (c.release i f).deliver i f
    | .ok false => if a.deadline then c.registerCallback i f a else c
    | .error code => c.fail i f (.driver code)
  else c.registerCallback i f a

/-- What an executing future makes of its stream's health. -/
def resume (health : StreamHealth) : Process T O :=
  match health with
  | .faulted code => c.fail i f (.driver code)
  | .idle => (c.release i f).deliver i f
  | .busy | .capturing => c.setFuture i { f with place := .reregister }

/-- The probe of an executing future. -/
def probe (s : ℕ) : Process T O :=
  match (c.streams s).probe with
  | some health => c.resume i f health
  | none => c.setFuture i { f with place := .query }

/-- The work is done: `drop` releases what the future kept. -/
def free : Process T O :=
  (c.release i f).setFuture i
    { f with completionPending := false, quarantined := none, result := none, place := .dropped }

/-- What `release_in_flight_result` makes of the stream's health. -/
def await (health : StreamHealth) : Process T O :=
  match health with
  | .idle => c.free i f
  | .busy => c.setFuture i { f with place := .sync }
  | .capturing | .faulted _ => c.abort

/-- `release_in_flight_result`. -/
def bind (s : ℕ) (a : Answer T O) : Process T O :=
  match a.refused, (c.streams s).probe with
  | some _, _ => c.abort
  | none, some health => c.await i f health
  | none, none => c.setFuture i { f with place := .dropQuery }

def sync (s : ℕ) : Process T O :=
  match (c.streams s).synchronize i with
  | .error _ => c.abort
  | .ok false => c
  | .ok true => c.free i f

end Future

/-- The next access of the call that future `i` is in. -/
def tick (i : ℕ) (a : Answer T O) : Process T O :=
  match c.futures[i]? with
  | none => c
  | some f =>
    match f.place with
    | .rest | .dropped => c
    | .register => (c.register i f.task).setFuture i { f with place := .execute }
    | .execute => c.execute i f a
    | .drain e owners => c.drain i f f.stream e owners
    | .spin => c.spin i f f.stream a
    | .claim =>
      match (if a.reactor then c.table.claim else none) with
      | some (slot, table) => (c.setTable table).setFuture i { f with place := .reset slot }
      | none => c.setFuture i { f with place := .host }
    | .reset slot => (c.setTable (c.table.resetFlag slot)).setFuture i { f with place := .write slot }
    | .write slot =>
      match a.refused with
      | some _ => c.setFuture i { f with place := .release slot }
      | none => (c.submit f.stream (.write slot i)).setFuture i { f with place := .payload slot }
    | .release slot => (c.setTable (c.table.release slot)).setFuture i { f with place := .host }
    | .payload slot => (c.setTable (c.table.putPayload slot ⟨i, f.stream⟩)).setFuture i
        { f with place := .count slot }
    | .count slot => (c.setTable c.table.count).setFuture i
        { f with place := .arm slot c.table.isIdle }
    | .arm slot wasIdle =>
      let c := (c.setTable (c.table.setActive slot)).record (.armed i)
      if wasIdle then c.setFuture i { f with place := .unpark } else c.suspend i f
    | .unpark => { c with token := true }.suspend i f
    | .host =>
      match a.refused with
      | some code => c.fail i f (.driver code)
      | none => ((c.submit f.stream (.signal i)).record (.armed i)).suspend i f
    | .check | .recheck =>
      if (c.callbacks i).complete then (c.release i f).deliver i f
      else
        match f.place with
        | .check => c.setFuture i { f with place := .probe }
        | _ => c.suspend i f
    | .probe => c.probe i f f.stream
    | .query => c.resume i f (c.streams f.stream).health
    | .reregister => (c.register i f.task).setFuture i { f with place := .recheck }
    | .bind => c.bind i f f.stream a
    | .dropQuery => c.await i f (c.streams f.stream).health
    | .sync => c.sync i f f.stream

/-- The message of `acquire_execution_lock`. -/
def nonReentrant : String :=
  "DeviceOp execution is non-reentrant: another DeviceOp is already executing on this thread. " ++
  "If this is intentional and you have verified there are no cross-stream data races, use " ++
  "`then_unchecked`."

/-- A call to `poll` by the task `w`; `locked` is whether its thread already executes. -/
def poll (i w : ℕ) (locked : Bool) : Process T O :=
  match c.futures[i]? with
  | none => c
  | some f =>
    match f.place with
    | .rest =>
      let c := c.record (.polled i w)
      match f.state with
      | .failed =>
        match f.error with
        | some e => c.fail i { f with task := w, error := none } e
        | none => (c.setFuture i { f with task := w, state := .complete }).record (.panicked i)
      | .idle =>
        let f := { f with task := w, callbackState := true }
        if locked then c.fail i f (.internal nonReentrant)
        else c.setFuture i { f with place := .register }
      | .executing => c.setFuture i { f with task := w, callbackState := true, place := .check }
      | .complete => (c.setFuture i { f with task := w, callbackState := true }).record (.panicked i)
    | _ => c

/-- `drop`. -/
def drop (i : ℕ) : Process T O :=
  match c.futures[i]? with
  | none => c
  | some f =>
    match f.place with
    | .rest =>
      if f.completionPending then
        match f.executionContext with
        | some _ => c.setFuture i { f with place := .bind }
        | none => c.abort
      else
        -- `QuarantinedResources` aborts when it is dropped with owners.
        match f.quarantined with
        | some (_ :: _) => c.abort
        | _ => c.setFuture i { f with place := .dropped }
    | _ => c

/-- A stream executes its next operation; after a fault only a host function that has begun. -/
def device (s : ℕ) : Process T O :=
  match (c.streams s).fault, (c.streams s).queue with
  | none, .work i :: queue => (c.setQueue s queue).record (.worked i)
  | none, .write slot _ :: queue => (c.setQueue s queue).setTable (c.table.land slot)
  | none, .signal i :: queue => (c.setQueue s (.wake i :: queue)).complete i
  | _, .wake i :: queue => ((c.setQueue s queue).wake i).record (.handled i)
  | _, _ => c

/-- `is_dead` for a payload: whether its stream is faulted, by this pass's memo or by the driver.
Where the driver has to be asked once more the answer is `none`. -/
def isDead (clock : Clock) (r : Registration) (pass : Pass Registration) : Option Bool :=
  match pass.memo.find? fun x => x.1 == r.stream with
  | some (_, dead) => some dead
  | none => if clock.bound then (c.streams r.stream).probe.map StreamHealth.isFaulted else some false

/-- `is_dead` keeps its first answer for a stream. -/
def memoize (r : Registration) (dead : Bool) (pass : Pass Registration) : Pass Registration :=
  match pass.memo.find? fun x => x.1 == r.stream with
  | some _ => pass
  | none => { pass with memo := pass.memo ++ [(r.stream, dead)] }

def setScanner (scanner : Scanner Registration) : Process T O := { c with scanner }

/-- The scanner has an answer of `is_dead` for a bit. -/
def judge (word : ℕ) (bits : BitVec 64) (bit : ℕ) (r : Registration) (dead : Bool)
    (pass : Pass Registration) : Process T O :=
  if dead then c.setScanner (.clear word bits bit false (memoize r dead pass))
  else c.setScanner (.next word bits (memoize r dead pass))

/-- The next access of the scanner. -/
def scan (clock : Clock) : Process T O :=
  match c.scanner with
  | .load word pass =>
    if word < c.table.numWords then
      if c.table.active word = 0#64 then c.setScanner (.load (word + 1) pass)
      else c.setScanner (.flag word (c.table.active word) { pass with anyActive := true })
    else c.setScanner (.close pass)
  | .flag word bits pass =>
    let bit := bits.ctz.toNat
    let bits := Bitmap.rest bits
    let slot := word * 64 + bit
    if slot < c.table.numSlots then
      if c.table.flags slot = 1 then c.setScanner (.clear word bits bit true pass)
      else if pass.probing then c.setScanner (.judge word bits bit pass)
      else c.setScanner (.next word bits pass)
    else c.setScanner (.load (word + 1) pass)
  | .judge word bits bit pass =>
    match c.table.payload (word * 64 + bit) with
    | none => c.setScanner (.next word bits pass)
    | some r =>
      match c.isDead clock r pass with
      | some dead => c.judge word bits bit r dead pass
      | none => c.setScanner (.query word bits bit pass)
  | .query word bits bit pass =>
    match c.table.payload (word * 64 + bit) with
    | none => c.setScanner (.next word bits pass)
    | some r => c.judge word bits bit r (c.streams r.stream).health.isFaulted pass
  | .clear word bits bit landed pass =>
    (c.setTable (c.table.clearActive word bit)).setScanner (.take word bits bit landed pass)
  | .take word bits bit landed pass =>
    let slot := word * 64 + bit
    let pass := { pass with retired := slot :: pass.retired }
    let pass := match c.table.payload slot with
      | none => pass
      | some r => if landed then { pass with woken := pass.woken ++ [r] }
        else { pass with dead := pass.dead ++ [r] }
    (c.setTable (c.table.takePayload slot)).setScanner (.next word bits pass)
  | .recycle pass => (c.setTable (c.table.recycle pass.retired)).setScanner (.uncount pass)
  | .uncount pass => (c.setTable (c.table.uncount pass.retired.length)).setScanner (.finish pass)
  | .signal pass =>
    match pass.woken with
    | [] => c.setScanner (.drain pass)
    | r :: _ => (c.complete r.waker).setScanner (.wake pass)
  | .wake pass =>
    match pass.woken with
    | [] => c.setScanner (.drain pass)
    | r :: woken =>
      let idlePasses := if woken = [] ∧ pass.probing = false then 0 else c.idlePasses
      { ((c.wake r.waker).record (.handled r.waker)).setScanner (.drain { pass with woken }) with
        idlePasses }
  | .fault pass =>
    match pass.dead with
    | [] => c.setScanner (.drain pass)
    | r :: dead =>
      ((c.wake r.waker).record (.handled r.waker)).setScanner (.drain { pass with dead })
  | .gate =>
    if c.table.isIdle then c.setScanner .park
    else
      let idlePasses := (c.idlePasses + 1) % 2 ^ 32
      if idlePasses < spinPasses then { c.setScanner .start with idlePasses }
      else { c.setScanner (if clock.elapsed then .load 0 (Pass.start true) else .start) with
        idlePasses }
  | .park =>
    if c.token ∨ clock.spurious then
      { c.setScanner .start with token := false, idlePasses := 0 }
    else c

inductive Input (T O : Type) where
  | new
  | scheduled (s : ℕ)
  | failed (e : DeviceError)
  | poll (i w : ℕ) (locked : Bool)
  | drop (i : ℕ)
  | tick (i : ℕ) (a : Answer T O)
  | device (s : ℕ)
  | fault (s code : ℕ)
  | capture (s : ℕ) (capturing : Bool)
  | scan (clock : Clock)

def create (f : DeviceFuture T O) : Process T O := { c with futures := c.futures ++ [f] }

/-- A context's error is sticky. -/
def fault (s code : ℕ) : Process T O :=
  c.setStream s { c.streams s with fault := (c.streams s).fault.or (some code) }

def capture (s : ℕ) (capturing : Bool) : Process T O :=
  c.setStream s ((c.streams s).capture capturing)

/-- Nothing happens after an abort. -/
def step (x : Input T O) : Process T O :=
  if c.aborted then c
  else
    match x with
    | .new => c.create .new
    | .scheduled s => c.create (.scheduled s)
    | .failed e => c.create (.failed e)
    | .poll i w locked => c.poll i w locked
    | .drop i => c.drop i
    | .tick i a => c.tick i a
    | .device s => c.device s
    | .fault s code => c.fault s code
    | .capture s capturing => c.capture s capturing
    | .scan clock => c.scan clock

def run (inputs : List (Input T O)) : Process T O := inputs.foldl step c

end Process
end Gudra.Reactor
