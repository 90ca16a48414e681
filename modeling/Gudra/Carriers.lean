import Gudra.Deliveries

/-! A registration that was handed over is in one place until it is delivered. -/
namespace Gudra.Reactor

variable {T O : Type}

def Event.arms (i : ℕ) : Event T O → Bool
  | .armed j => j == i
  | _ => false

def Event.handles (i : ℕ) : Event T O → Bool
  | .handled j => j == i
  | _ => false

/-- A host function that signals future `i`. -/
def StreamOp.calls (i : ℕ) : StreamOp → Bool
  | .signal j | .wake j => j == i
  | _ => false

namespace Process

variable {c c' : Process T O} {f f' : DeviceFuture T O} {r : Registration} {i j s slot : ℕ}

/-- The registrations in the bitmap and in the scanner's hands. -/
def letters (c : Process T O) : List Registration :=
  (c.table.armed ++ c.scanner.taken).filterMap c.table.payload ++
    (c.scanner.pass.woken ++ c.scanner.pass.dead)

/-- How many times the callback of future `i`, of stream `s`, is on its way, or recorded by a
capture instead. -/
def carriers (c : Process T O) (i s : ℕ) : ℕ :=
  c.letters.countP (·.waker == i) + (c.streams s).ops.countP (·.calls i)

/-- What is handed over and what is delivered differ by what is on its way. -/
def Balanced (c : Process T O) (i s : ℕ) : Prop :=
  c.carriers i s + c.log.countP (·.handles i) = c.log.countP (·.arms i)

def Carried (c : Process T O) : Prop :=
  ∀ (i : ℕ) (f : DeviceFuture T O), c.futures[i]? = some f → c.Balanced i f.stream

/-- A step moves callbacks from one place to another. -/
def Moves (c c' : Process T O) (i s : ℕ) : Prop :=
  c'.carriers i s + c'.log.countP (·.handles i) + c.log.countP (·.arms i) =
    c.carriers i s + c.log.countP (·.handles i) + c'.log.countP (·.arms i)

theorem Balanced.step (h : c.Balanced i s) (hmoves : Moves c c' i s) : c'.Balanced i s := by
  unfold Balanced Moves at *
  omega

theorem letters_congr (htable : c.table.Same c'.table) (htaken : c'.scanner.taken = c.scanner.taken)
    (hwoken : c'.scanner.pass.woken = c.scanner.pass.woken)
    (hdead : c'.scanner.pass.dead = c.scanner.pass.dead) : c'.letters = c.letters := by
  rw [letters, letters, armed_of_same htable, htable.payload, htaken, hwoken, hdead]

/-- Events that neither hand over nor deliver do not count. -/
theorem countP_quiet {es : List (Event T O)} (hes : es.all (fun e => !e.arms i && !e.handles i))
    (log : List (Event T O)) : (es ++ log).countP (·.arms i) = log.countP (·.arms i) ∧
      (es ++ log).countP (·.handles i) = log.countP (·.handles i) := by
  have hall : ∀ e ∈ es, e.arms i = false ∧ e.handles i = false := by
    intro e he
    simpa using List.all_eq_true.mp hes e he
  constructor
  · rw [List.countP_append, List.countP_eq_zero.mpr fun e he => by simp [(hall e he).1], Nat.zero_add]
  · rw [List.countP_append, List.countP_eq_zero.mpr fun e he => by simp [(hall e he).2], Nat.zero_add]

/-- Nothing is handed over or delivered. -/
theorem moves_quiet (es : List (Event T O)) (hletters : c'.letters.Perm c.letters)
    (hqueue : (c'.streams s).ops.countP (·.calls i) = (c.streams s).ops.countP (·.calls i))
    (hlog : c'.log = es ++ c.log) (hes : es.all (fun e => !e.arms i && !e.handles i)) : Moves c c' i s := by
  obtain ⟨harms, hhandles⟩ := countP_quiet hes c.log
  rw [Moves, hlog, harms, hhandles, carriers, carriers, hletters.countP_eq, hqueue]

theorem Carried.set (h : c.Carried) (hi : c.futures[i]? = some f)
    (hfutures : c'.futures = c.futures.set i f') (hcontext : f'.executionContext = f.executionContext)
    (hmoves : ∀ j g, c.futures[j]? = some g → Moves c c' j g.stream) : c'.Carried := by
  intro j g hj
  rw [hfutures] at hj
  rcases getElem?_set_cases hi hj with ⟨rfl, rfl⟩ | ⟨-, hj⟩
  · have hstream : g.stream = f.stream := congrArg (Option.getD · 0) hcontext
    rw [hstream]
    exact (h j f hi).step (hmoves j f hi)
  · exact (h j g hj).step (hmoves j g hj)

theorem Carried.congr (h : c.Carried) (hfutures : c'.futures = c.futures)
    (hmoves : ∀ j g, c.futures[j]? = some g → Moves c c' j g.stream) : c'.Carried := by
  intro j g hj
  rw [hfutures] at hj
  exact (h j g hj).step (hmoves j g hj)

theorem countP_submit (op : StreamOp) : ((c.submit s op).streams j).ops.countP (·.calls i) =
    (c.streams j).ops.countP (·.calls i) + if j = s then [op].countP (·.calls i) else 0 := by
  by_cases hj : j = s
  · subst hj
    rw [submit_self, (Stream.ops_submit _ op).countP_eq, if_pos rfl, List.countP_cons,
      List.countP_singleton]
  · rw [submit_of_ne op hj, if_neg hj, Nat.add_zero]

section Ticks

variable (h : c.Carried) (hi : c.futures[i]? = some f)

include h hi

/-- The table, the scanner and the stream's host functions stay as they are. -/
theorem carried_plain (es : List (Event T O)) (hfutures : c'.futures = c.futures.set i f')
    (hcontext : f'.executionContext = f.executionContext) (htable : c.table.Same c'.table)
    (hscanner : c'.scanner = c.scanner)
    (hqueue : ∀ j s, (c'.streams s).ops.countP (·.calls j) = (c.streams s).ops.countP (·.calls j))
    (hlog : c'.log = es ++ c.log)
    (hes : ∀ j, es.all (fun e => !e.arms j && !e.handles j)) : c'.Carried := by
  refine h.set hi hfutures hcontext fun j g _ => moves_quiet es ?_ (hqueue j g.stream) hlog (hes j)
  rw [letters_congr htable (congrArg Scanner.taken hscanner) (by rw [hscanner]) (by rw [hscanner])]

theorem carried_deliver : ((c.release i f).deliver i f).Carried := by
  unfold deliver
  obtain heq | ⟨owners, -, heq⟩ := release_cases (c := c) (i := i) (f := f) <;> rw [heq] <;>
    dsimp only <;> split
  · exact carried_plain h hi [_] rfl rfl c.table.same_refl rfl (fun _ _ => rfl) rfl fun _ => rfl
  · exact carried_plain h hi [_] rfl rfl c.table.same_refl rfl (fun _ _ => rfl) rfl fun _ => rfl
  · exact carried_plain h hi [_, _] rfl rfl c.table.same_refl rfl (fun _ _ => rfl) rfl fun _ => rfl
  · exact carried_plain h hi [_, _] rfl rfl c.table.same_refl rfl (fun _ _ => rfl) rfl fun _ => rfl

/-- A slot joins the bitmap, with the registration of the future. -/
theorem carried_arm {wasIdle : Bool} (es : List (Event T O)) (hp : c.Placed) (hposted : c.Posted)
    (hplace : f.place = .arm slot wasIdle) (htable : c'.table = c.table.setActive slot)
    (hfutures : c'.futures = c.futures.set i f') (hcontext : f'.executionContext = f.executionContext)
    (hscanner : c'.scanner = c.scanner) (hstreams : c'.streams = c.streams)
    (hlog : c'.log = es ++ .armed i :: c.log)
    (hes : ∀ j, es.all (fun e => !e.arms j && !e.handles j)) : c'.Carried := by
  have hslot : slot ∈ f.place.slots := by
    rw [hplace]
    exact List.mem_singleton_self slot
  have harmed := Slots.armed_set_perm hp (places_get hi) hslot
  have hstored : c.table.payload slot = some ⟨i, f.stream⟩ :=
    hposted.stored slot _ (call_self hi (by rw [hplace]; exact List.mem_singleton_self slot))
  have hletters : c'.letters.Perm (⟨i, f.stream⟩ :: c.letters) := by
    have hfilter := (harmed.append_right c.scanner.taken).filterMap c.table.payload
    rw [List.cons_append, List.filterMap_cons_some hstored] at hfilter
    rw [letters, letters, htable, hscanner]
    exact hfilter.append_right _
  refine h.set hi hfutures hcontext fun j g hj => ?_
  obtain ⟨hquiet, hquiet'⟩ := countP_quiet (hes j) (.armed i :: c.log)
  have hhandles : (.armed i :: c.log : List (Event T O)).countP (·.handles j) =
      c.log.countP (·.handles j) := List.countP_cons_of_neg (by simp [Event.handles])
  have harms : (.armed i :: c.log : List (Event T O)).countP (·.arms j) =
      c.log.countP (·.arms j) + if i == j then 1 else 0 := List.countP_cons
  have hcons : (⟨i, f.stream⟩ :: c.letters : List Registration).countP (·.waker == j) =
      c.letters.countP (·.waker == j) + if i == j then 1 else 0 := List.countP_cons
  rw [Moves, hlog, hquiet, hquiet', carriers, carriers, hletters.countP_eq, hstreams, hhandles, harms,
    hcons]
  omega

theorem carried_host (hlog : c'.log = [.pending i, .armed i] ++ c.log)
    (hfutures : c'.futures = c.futures.set i f') (hcontext : f'.executionContext = f.executionContext)
    (htable : c'.table = c.table) (hscanner : c'.scanner = c.scanner)
    (hstreams : c'.streams = (c.submit f.stream (.signal i)).streams) : c'.Carried := by
  have hletters : c'.letters = c.letters := by rw [letters, letters, htable, hscanner]
  refine h.set hi hfutures hcontext fun j g hj => ?_
  rw [Moves, carriers, carriers, hletters, hstreams, countP_submit, hlog]
  simp only [List.cons_append, List.nil_append, List.countP_cons, List.countP_nil, Event.handles,
    Event.arms, StreamOp.calls, Bool.false_eq_true, if_false, Nat.zero_add, Nat.add_zero]
  by_cases hji : i = j
  · subst hji
    obtain rfl := Option.some.inj (hi.symm.trans hj)
    simp only [if_true]
    omega
  · simp only [beq_eq_false_iff_ne.mpr hji, Bool.false_eq_true, if_false, ite_self]
    omega

theorem carried_ticks (hp : c.Placed) (hposted : c.Posted) (ht : Ticks c i f c') : c'.Carried := by
  have hsame := c.table.same_refl
  have hcount : ∀ (op : StreamOp), (∀ j, op.calls j = false) → ∀ j s,
      ((c.submit f.stream op).streams s).ops.countP (·.calls j) =
        (c.streams s).ops.countP (·.calls j) := by
    intro op hop j s
    rw [countP_submit, List.countP_singleton, hop j]
    simp
  cases ht with
  | wait => exact h
  | abort => exact h.congr rfl fun j g _ => rfl
  | register | reregister | executeNone | unclaimed | react | unwritten | missed | ask | busy | bind
  | block =>
    exact carried_plain h hi [] rfl rfl hsame rfl (fun _ _ => rfl) rfl fun _ => rfl
  | reject | refuse | suspend | unpark =>
    exact carried_plain h hi [_] rfl rfl hsame rfl (fun _ _ => rfl) rfl fun _ => rfl
  | execute | executeSome =>
    exact carried_plain h hi [_] rfl rfl hsame rfl (hcount (.work i) fun _ => rfl) rfl fun _ => rfl
  | drained =>
    exact carried_plain h hi [_, _] rfl rfl hsame rfl (fun _ _ => rfl) rfl fun _ => rfl
  | prove | observe => exact carried_deliver h hi
  | claim slot table hplace htable =>
    have hclaim : c.table.Same table := by
      unfold SlotTable.claim at htable
      split at htable
      · cases htable
      · obtain ⟨-, rfl⟩ := Prod.mk.inj (Option.some.inj htable)
        exact ⟨rfl, rfl, rfl, rfl⟩
    exact carried_plain h hi [] rfl rfl hclaim rfl (fun _ _ => rfl) rfl fun _ => rfl
  | release | count =>
    exact carried_plain h hi [] rfl rfl ⟨rfl, rfl, rfl, rfl⟩ rfl (fun _ _ => rfl) rfl fun _ => rfl
  | reset slot hplace =>
    refine h.set hi rfl rfl fun j g _ => ?_
    exact rfl
  | write slot hplace =>
    exact carried_plain h hi [] rfl rfl hsame rfl (hcount (.write slot i) fun _ => rfl) rfl fun _ => rfl
  | payload slot hplace =>
    have hkept : slot ∉ c.table.armed ++ c.scanner.taken :=
      hp.not_kept (call_self hi (by rw [hplace]; exact List.mem_singleton_self slot))
    refine h.set hi rfl rfl fun j g _ => moves_quiet [] (List.Perm.of_eq ?_) rfl rfl rfl
    refine congrArg (· ++ (c.scanner.pass.woken ++ c.scanner.pass.dead)) (List.filterMap_congr fun x hx => ?_)
    refine Function.update_of_ne ?_ _ _
    rintro rfl
    exact hkept hx
  | armFirst slot hplace =>
    exact carried_arm h hi [] hp hposted hplace rfl rfl rfl rfl rfl rfl fun _ => rfl
  | arm slot hplace =>
    exact carried_arm h hi [_] hp hposted hplace rfl rfl rfl rfl rfl rfl fun _ => rfl
  | host hplace => exact carried_host h hi rfl rfl rfl rfl rfl rfl
  | free =>
    obtain heq | ⟨owners, -, heq⟩ := release_cases (c := c) (i := i) (f := f)
    · rw [free, heq]
      exact carried_plain h hi [] rfl rfl hsame rfl (fun _ _ => rfl) rfl fun _ => rfl
    · rw [free, heq]
      exact carried_plain h hi [_] rfl rfl hsame rfl (fun _ _ => rfl) rfl fun _ => rfl

theorem carried_calls (hc : Calls c i f c') : c'.Carried := by
  have hsame := c.table.same_refl
  cases hc with
  | wait => exact h
  | abort => exact h.congr rfl fun j g _ => rfl
  | error | missing | locked | late =>
    exact carried_plain h hi [_, _] rfl rfl hsame rfl (fun _ _ => rfl) rfl fun _ => rfl
  | begin | again =>
    exact carried_plain h hi [_] rfl rfl hsame rfl (fun _ _ => rfl) rfl fun _ => rfl
  | bind | discard =>
    exact carried_plain h hi [] rfl rfl hsame rfl (fun _ _ => rfl) rfl fun _ => rfl

end Ticks

theorem log_wake_cases (i : ℕ) : (c.wake i).log = c.log ∨ ∃ w, (c.wake i).log = .woken i w :: c.log := by
  obtain heq | ⟨w, -, heq⟩ := wake_cases (c := c) (i := i)
  · exact .inl (by rw [heq])
  · exact .inr ⟨w, by rw [heq]; rfl⟩

/-- The callback of `i` is delivered. -/
theorem moves_handled {log : List (Event T O)} (hlog : c'.log = .handled i :: log)
    (hwake : log = c.log ∨ ∃ w, log = .woken i w :: c.log)
    (hcarriers : c'.carriers j s + (if i == j then 1 else 0) = c.carriers j s) : Moves c c' j s := by
  have hhandles : c'.log.countP (·.handles j) =
      c.log.countP (·.handles j) + if i == j then 1 else 0 := by
    rw [hlog, List.countP_cons]
    rcases hwake with rfl | ⟨w, rfl⟩
    · rfl
    · rw [List.countP_cons_of_neg (by simp [Event.handles])]
      rfl
  have harms : c'.log.countP (·.arms j) = c.log.countP (·.arms j) := by
    rw [hlog, List.countP_cons_of_neg (by simp [Event.arms])]
    rcases hwake with rfl | ⟨w, rfl⟩
    · rfl
    · exact List.countP_cons_of_neg (by simp [Event.arms])
  rw [Moves, hhandles, harms]
  omega

/-- The head of a stream is replaced by one that signals as much. -/
theorem countP_setQueue {queue queue' : List StreamOp} (hq : (c.streams s).queue = queue)
    (hcount : queue'.countP (·.calls i) = queue.countP (·.calls i)) :
    ((c.setQueue s queue').streams j).ops.countP (·.calls i) =
      (c.streams j).ops.countP (·.calls i) := by
  by_cases hj : j = s
  · subst hj
    rw [setQueue_self, Stream.ops, Stream.ops, hq, List.countP_append, List.countP_append, hcount]
  · rw [setQueue_of_ne hj]

theorem carried_device (h : c.Carried) (ht : c.Tracked) (s : ℕ) : (c.device s).Carried := by
  unfold device
  split
  · rename_i hf hq
    refine h.congr rfl fun j g _ => moves_quiet [_] (List.Perm.refl _) ?_ rfl rfl
    exact countP_setQueue hq (List.countP_cons_of_neg (by simp [StreamOp.calls])).symm
  · rename_i hf hq
    refine h.congr rfl fun j g _ => moves_quiet [] (List.Perm.refl _) ?_ rfl rfl
    exact countP_setQueue hq (List.countP_cons_of_neg (by simp [StreamOp.calls])).symm
  · rename_i i queue hf hq
    refine h.congr rfl fun j g _ => moves_quiet [] (List.Perm.refl _) ?_ rfl rfl
    refine countP_setQueue hq ?_
    rw [List.countP_cons, List.countP_cons]
    rfl
  · rename_i i queue hq
    have hhead : .wake i ∈ (c.streams s).queue := hq ▸ List.mem_cons_self
    obtain ⟨f, hi, hcontext, -⟩ := ht.mem_queue hhead
    have hs := f.stream_of_context hcontext
    refine h.congr wake_futures fun j g hj => moves_handled rfl (log_wake_cases i) ?_
    have hletters : (((c.setQueue s queue).wake i).record (.handled i)).letters = c.letters := by
      refine letters_congr ?_ (congrArg Scanner.taken wake_scanner) ?_ ?_
      · exact (wake_table (c := c.setQueue s queue)).symm ▸ c.table.same_refl
      · exact congrArg (fun s => s.pass.woken) (wake_scanner (c := c.setQueue s queue))
      · exact congrArg (fun s => s.pass.dead) (wake_scanner (c := c.setQueue s queue))
    have hstreams : (((c.setQueue s queue).wake i).record (.handled i)).streams =
        (c.setQueue s queue).streams := wake_streams
    rw [carriers, carriers, hletters, hstreams]
    by_cases hij : i = j
    · subst hij
      obtain rfl := Option.some.inj (hi.symm.trans hj)
      have hhead : (StreamOp.wake i).calls i = true := beq_self_eq_true i
      rw [hs, Stream.ops, Stream.ops, setQueue_self, hq, List.cons_append,
        List.countP_cons_of_pos hhead, if_pos (beq_self_eq_true i), Nat.add_assoc]
    · rw [countP_setQueue hq, if_neg (by simpa using hij), Nat.add_zero]
      exact (List.countP_cons_of_neg (by simpa [StreamOp.calls] using hij)).symm
  · exact h

/-- The scanner takes a registration out of the table, and keeps it. -/
theorem perm_take {word bit : ℕ} {bits : BitVec 64} {landed : Bool} {pass : Pass Registration}
    {s' : Scanner Registration} (hp : c.Placed)
    (hs : c.scanner = .take word bits bit landed pass) (hplain : s'.Plain)
    (hwoken : s'.pass.woken = pass.woken ++
      if landed then (c.table.payload (word * 64 + bit)).toList else [])
    (hdead : s'.pass.dead = pass.dead ++
      if landed then [] else (c.table.payload (word * 64 + bit)).toList) :
    ((c.setTable (c.table.takePayload (word * 64 + bit))).setScanner s').letters.Perm c.letters := by
  have hnot := hp.not_armed hs
  have harmed : c.table.armed.filterMap (c.table.takePayload (word * 64 + bit)).payload =
      c.table.armed.filterMap c.table.payload := by
    refine List.filterMap_congr fun x hx => Function.update_of_ne ?_ _ _
    rintro rfl
    exact hnot hx
  have htaken : [word * 64 + bit].filterMap c.table.payload =
      (c.table.payload (word * 64 + bit)).toList := by
    cases hpayload : c.table.payload (word * 64 + bit) with
    | none => exact List.filterMap_cons_none hpayload
    | some r => exact List.filterMap_cons_some hpayload
  have hleft : ((c.setTable (c.table.takePayload (word * 64 + bit))).setScanner s').letters =
      c.table.armed.filterMap c.table.payload ++ (s'.pass.woken ++ s'.pass.dead) := by
    show (_ ++ s'.taken).filterMap _ ++ _ = _
    rw [hplain.taken, List.append_nil]
    exact congrArg (· ++ _) harmed
  have hright : c.letters = c.table.armed.filterMap c.table.payload ++
      (c.table.payload (word * 64 + bit)).toList ++ (pass.woken ++ pass.dead) := by
    rw [letters, hs, ← htaken, ← List.filterMap_append]
    rfl
  rw [hleft, hright, hwoken, hdead, List.perm_iff_count]
  intro r
  cases landed with
  | true =>
    simp only [if_true, List.append_nil, List.count_append]
    omega
  | false =>
    simp only [Bool.false_eq_true, if_false, List.append_nil, List.count_append]
    omega

theorem carriers_handed {s' : Scanner Registration} {n : ℕ} (htaken : c.scanner.taken = [])
    (hplain : s'.Plain) (hperm : (c.scanner.pass.woken ++ c.scanner.pass.dead).Perm
      (r :: (s'.pass.woken ++ s'.pass.dead))) :
    ({ ((c.wake r.waker).record (.handled r.waker)).setScanner s' with idlePasses := n } :
      Process T O).carriers j s + (if r.waker == j then 1 else 0) = c.carriers j s := by
  have hletters : c.letters.Perm (r :: ({ ((c.wake r.waker).record (.handled r.waker)).setScanner s'
      with idlePasses := n } : Process T O).letters) := by
    show (_ ++ _ : List Registration).Perm (r :: ((((c.wake r.waker).table.armed ++ s'.taken).filterMap
      (c.wake r.waker).table.payload) ++ (s'.pass.woken ++ s'.pass.dead)))
    rw [wake_table, htaken, hplain.taken]
    exact (hperm.append_left _).trans List.perm_middle
  have hstreams : (c.wake r.waker).streams = c.streams := wake_streams
  show _ + ((c.wake r.waker).streams s).ops.countP (·.calls j) + _ = _
  rw [hstreams, carriers, hletters.countP_eq, List.countP_cons]
  omega

theorem carried_scan (h : c.Carried) (hp : c.Placed) (hscan : Scans c c') : c'.Carried := by
  cases hscan with
  | move table s' n token ht htaken _ hwoken hdead _ =>
    refine h.congr rfl fun j g _ => moves_quiet [] (List.Perm.of_eq ?_) rfl rfl rfl
    exact letters_congr ht (htaken.2.trans htaken.1.symm) hwoken hdead
  | clear word bits bit landed pass hs =>
    have hslots : Slots c.table c.scanner c.token c.places := hp
    rw [hs] at hslots
    have hperm := Slots.armed_clear_perm hslots
    refine h.congr rfl fun j g _ => moves_quiet [] ?_ rfl rfl rfl
    have hnone : c.letters = c.table.armed.filterMap c.table.payload ++ (pass.woken ++ pass.dead) := by
      rw [letters, hs]
      exact congrArg (fun l => l.filterMap c.table.payload ++ _) (List.append_nil _)
    have hkept := (hperm.trans (List.perm_append_singleton _ _).symm).filterMap c.table.payload
    rw [hnone]
    exact (hkept.append_right (pass.woken ++ pass.dead)).symm
  | take word bits bit landed pass hs s' hplain hwoken hdead _ =>
    exact h.congr rfl fun j g _ =>
      moves_quiet [] (perm_take hp hs hplain hwoken hdead) rfl rfl rfl
  | signal pass r woken hs hwoken =>
    refine h.congr rfl fun j g _ => moves_quiet [] (List.Perm.of_eq ?_) rfl rfl rfl
    refine letters_congr c.table.same_refl ?_ ?_ ?_ <;> rw [hs] <;> rfl
  | wake pass r s' n hs hplain hwoken hdead _ =>
    refine h.congr wake_futures fun j g _ => moves_handled rfl (log_wake_cases r.waker) ?_
    refine carriers_handed (by rw [hs]; rfl) hplain ?_
    rw [hs, Scanner.pass, hwoken, hdead]
    exact List.Perm.refl _
  | fault pass r s' hs hplain hwoken hdead _ =>
    refine h.congr wake_futures fun j g _ => moves_handled rfl (log_wake_cases r.waker) ?_
    refine carriers_handed (by rw [hs]; rfl) hplain ?_
    rw [hs, Scanner.pass, hwoken, hdead]
    exact List.perm_middle

/-- A host function in a stream is a callback on its way. -/
theorem carriers_pos (ht : c.Tracked) {queue : List StreamOp}
    (hq : (c.streams s).queue = .wake i :: queue) :
    ∃ f, c.futures[i]? = some f ∧ 0 < c.carriers i f.stream := by
  have hhead : .wake i ∈ (c.streams s).queue := hq ▸ List.mem_cons_self
  obtain ⟨f, hi, hcontext, -⟩ := ht.mem_queue hhead
  have hcalls : 0 < (c.streams s).ops.countP (·.calls i) :=
    List.countP_pos_iff.mpr ⟨_, List.mem_append_left _ hhead, beq_self_eq_true i⟩
  refine ⟨f, hi, ?_⟩
  rw [carriers, f.stream_of_context hcontext]
  omega

/-- Every letter is addressed to a future that exists. -/
theorem letters_lt (hsound : c.Sound) : ∀ r ∈ c.letters, r.waker < c.futures.length := by
  intro r hr
  rcases List.mem_append.mp hr with hr | hr
  · obtain ⟨slot, hslot, hpayload⟩ := List.mem_filterMap.mp hr
    obtain ⟨r', hr', hregistered⟩ := hsound.told.1.kept slot hslot
    obtain rfl := Option.some.inj (hr'.symm.trans hpayload)
    exact hregistered.lt
  · rcases List.mem_append.mp hr with hr | hr
    · exact (hsound.told.2.woken r hr).1.lt
    · exact (hsound.told.2.dead r hr).1.lt

theorem carried_create {g : DeviceFuture T O} (h : c.Carried) (hsound : c.Sound) :
    (c.create g).Carried := by
  intro j f hj
  rcases futures_create hj with hj | ⟨rfl, rfl⟩
  · exact h j f hj
  · have hqueue : ∀ op ∈ (c.streams f.stream).ops, op.calls c.futures.length = false := by
      intro op hop
      obtain ⟨g, hg, -⟩ := hsound.tracked.queued _ op hop
      obtain ⟨hlt, -⟩ := List.getElem?_eq_some_iff.mp hg
      cases op with
      | work | write => rfl
      | signal i | wake i => exact beq_eq_false_iff_ne.mpr hlt.ne
    have hlog : ∀ e ∈ c.log, e.arms c.futures.length = false ∧ e.handles c.futures.length = false := by
      intro e he
      have hne : e.future ≠ c.futures.length := (hsound.tracked.known e he).ne
      cases e <;> simp_all [Event.arms, Event.handles, Event.future]
    show c.carriers _ _ + c.log.countP _ = c.log.countP _
    rw [carriers, List.countP_eq_zero.mpr fun r hr => by simpa using (letters_lt hsound r hr).ne,
      List.countP_eq_zero.mpr fun op hop => by simp [hqueue op hop],
      List.countP_eq_zero.mpr fun e he => by simp [(hlog e he).2],
      List.countP_eq_zero.mpr fun e he => by simp [(hlog e he).1]]

theorem carried_setStream {stream : Stream} (h : c.Carried) (hops : stream.ops = (c.streams s).ops) :
    (c.setStream s stream).Carried := by
  refine h.congr rfl fun j g _ => moves_quiet [] (List.Perm.refl _) ?_ rfl rfl
  by_cases hgs : g.stream = s
  · simp [setStream, hgs, hops]
  · simp [setStream, hgs]

theorem carried_step (h : c.Carried) (hsound : c.Sound) (x : Input T O) : (c.step x).Carried := by
  unfold step
  split
  · exact h
  · cases x with
    | new | scheduled | failed => exact carried_create h hsound
    | poll i w locked =>
      cases hi : c.futures[i]? with
      | none => simpa only [Process.poll, hi] using h
      | some f => exact carried_calls h hi (calls_poll hi w locked)
    | drop i =>
      cases hi : c.futures[i]? with
      | none => simpa only [Process.drop, hi] using h
      | some f => exact carried_calls h hi (calls_drop hi)
    | tick i a =>
      cases hi : c.futures[i]? with
      | none => simpa only [Process.tick, hi] using h
      | some f => exact carried_ticks h hi hsound.placed hsound.told.1 (ticks hi)
    | device s => exact carried_device h hsound.tracked s
    | fault s code => exact carried_setStream h rfl
    | capture s capturing => exact carried_setStream h rfl
    | scan clock => exact carried_scan h hsound.placed (scans clock)

theorem carried_init (numSlots : ℕ) : (init numSlots : Process T O).Carried := by
  intro i f hi
  simp [init] at hi

theorem carried_run (h : c.Carried) (hsound : c.Sound) (inputs : List (Input T O)) :
    (c.run inputs).Carried := by
  induction inputs generalizing c with
  | nil => exact h
  | cons x inputs ih => exact ih (carried_step h hsound x) (sound_step hsound x)

end Process
end Gudra.Reactor
