import Mathlib.Tactic

/-! Interleaved programs that load and store one shared memory. -/
namespace Interleave

/-- A program as the loads and stores that it makes, in order. -/
inductive Prog (A V ρ : Type) where
  | ret (r : ρ)
  | load (a : A) (k : V → Prog A V ρ)
  | store (a : A) (v : V) (k : Prog A V ρ)

inductive Access (A V : Type) where
  | load (a : A) (v : V)
  | store (a : A) (v : V)
deriving DecidableEq

namespace Access

variable {A V : Type}

def stored : Access A V → Option (A × V)
  | load _ _ => none
  | store a v => some (a, v)

end Access

namespace Prog

variable {A V ρ σ : Type}

def bind : Prog A V ρ → (ρ → Prog A V σ) → Prog A V σ
  | ret r, f => f r
  | load a k, f => load a fun v => (k v).bind f
  | store a v k, f => store a v (k.bind f)

instance : Monad (Prog A V) where
  pure := ret
  bind := bind

def read (a : A) : Prog A V V := load a ret

def write (a : A) (v : V) : Prog A V Unit := store a v (ret ())

def finished : Prog A V ρ → Bool
  | ret _ => true
  | _ => false

/-- What the program returns when every load sees `m`. -/
def result (m : A → V) : Prog A V ρ → ρ
  | ret r => r
  | load a k => (k (m a)).result m
  | store _ _ k => k.result m

/-- The stores made when every load sees `m`. -/
def stores (m : A → V) : Prog A V ρ → List (A × V)
  | ret _ => []
  | load a k => (k (m a)).stores m
  | store a v k => (a, v) :: k.stores m

def loads (m : A → V) : Prog A V ρ → List A
  | ret _ => []
  | load a k => a :: (k (m a)).loads m
  | store _ _ k => k.loads m

/-- The next access, with the memory and the program after it. -/
def step [DecidableEq A] (m : A → V) : Prog A V ρ → Option (Access A V × (A → V) × Prog A V ρ)
  | ret _ => none
  | load a k => some (.load a (m a), m, k (m a))
  | store a v k => some (.store a v, Function.update m a v, k)

/-- The memory after all accesses, when nothing else runs. -/
def run [DecidableEq A] (m : A → V) : Prog A V ρ → A → V
  | ret _ => m
  | load a k => (k (m a)).run m
  | store a v k => k.run (Function.update m a v)

section Equations

variable {m n : A → V} {p : Prog A V ρ} {f : ρ → Prog A V σ} {a : A} {v : V}

@[simp] theorem pure_eq (r : ρ) : (pure r : Prog A V ρ) = ret r := rfl

@[simp] theorem bind_eq : p >>= f = p.bind f := rfl

@[simp] theorem result_ret (r : ρ) : (ret r : Prog A V ρ).result m = r := rfl

@[simp] theorem stores_ret (r : ρ) : (ret r : Prog A V ρ).stores m = [] := rfl

@[simp] theorem loads_ret (r : ρ) : (ret r : Prog A V ρ).loads m = [] := rfl

@[simp] theorem result_read : (read a : Prog A V V).result m = m a := rfl

@[simp] theorem stores_read : (read a : Prog A V V).stores m = [] := rfl

@[simp] theorem loads_read : (read a : Prog A V V).loads m = [a] := rfl

@[simp] theorem result_write : (write a v).result m = () := rfl

@[simp] theorem stores_write : (write a v).stores m = [(a, v)] := rfl

@[simp] theorem loads_write : (write a v).loads m = [] := rfl

@[simp] theorem result_bind : (p.bind f).result m = (f (p.result m)).result m := by
  induction p with
  | ret r => rfl
  | load a k ih => exact ih (m a)
  | store a v k ih => exact ih

@[simp] theorem stores_bind :
    (p.bind f).stores m = p.stores m ++ (f (p.result m)).stores m := by
  induction p with
  | ret r => rfl
  | load a k ih => exact ih (m a)
  | store a v k ih => exact congrArg _ ih

@[simp] theorem loads_bind : (p.bind f).loads m = p.loads m ++ (f (p.result m)).loads m := by
  induction p with
  | ret r => rfl
  | load a k ih => exact congrArg _ (ih (m a))
  | store a v k ih => exact ih

theorem finished_iff {p : Prog A V ρ} : p.finished = true ↔ ∃ r, p = ret r := by
  cases p <;> simp [finished]

end Equations

section Tiles

variable {ι : Type} (addr : ι → Option A)

/-- Loads the lanes that have an address; the others hold `pad`. -/
def gather [DecidableEq ι] (pad : V) : List ι → Prog A V (ι → V)
  | [] => ret fun _ => pad
  | i :: is =>
    match addr i with
    | some a => (read a).bind fun v => (gather pad is).bind fun t => ret (Function.update t i v)
    | none => gather pad is

/-- Stores the lanes that have an address. -/
def scatter (t : ι → V) : List ι → Prog A V Unit
  | [] => ret ()
  | i :: is =>
    match addr i with
    | some a => (write a (t i)).bind fun _ => scatter t is
    | none => scatter t is

variable {addr} {m : A → V} {pad : V} {t : ι → V} {is : List ι}

theorem result_gather [DecidableEq ι] : (gather addr pad is).result m =
    fun i => if i ∈ is then (addr i).elim pad m else pad := by
  induction is with
  | nil => rfl
  | cons j is ih =>
    funext i
    cases hj : addr j with
    | none =>
      simp only [gather, hj, ih, List.mem_cons]
      by_cases hi : i = j
      · subst hi
        simp [hj]
      · simp [hi]
    | some a =>
      simp only [gather, hj, result_bind, result_read, ih, result_ret, Function.update_apply,
        List.mem_cons]
      by_cases hi : i = j
      · subst hi
        simp [hj]
      · simp [hi]

@[simp] theorem stores_gather [DecidableEq ι] : (gather addr pad is).stores m = [] := by
  induction is with
  | nil => rfl
  | cons j is ih => cases hj : addr j <;> simp [gather, hj, ih]

@[simp] theorem loads_gather [DecidableEq ι] : (gather addr pad is).loads m = is.filterMap addr := by
  induction is with
  | nil => rfl
  | cons j is ih => cases hj : addr j <;> simp [gather, hj, ih]

@[simp] theorem stores_scatter : (scatter addr t is).stores m =
    is.filterMap fun i => (addr i).map fun a => (a, t i) := by
  induction is with
  | nil => rfl
  | cons j is ih => cases hj : addr j <;> simp [scatter, hj, ih]

@[simp] theorem loads_scatter : (scatter addr t is).loads m = [] := by
  induction is with
  | nil => rfl
  | cons j is ih => cases hj : addr j <;> simp [scatter, hj, ih]

end Tiles
end Prog

variable {A V : Type}

/-- No address is stored twice, and none is both loaded and stored. -/
structure Separate (m : A → V) (ps : List (Prog A V Unit)) : Prop where
  nodup : ((ps.flatMap (Prog.stores m)).map Prod.fst).Nodup
  apart : ∀ a ∈ ps.flatMap (Prog.loads m), a ∉ (ps.flatMap (Prog.stores m)).map Prod.fst

/-- After the stores `done`, the programs `ps` remain of `ps₀`, which started on `m₀`. Other
programs may have changed whatever these neither load nor store. -/
structure Progress (m₀ : A → V) (ps₀ : List (Prog A V Unit)) (done : List (A × V)) (m : A → V)
    (ps : List (Prog A V Unit)) : Prop where
  stores : (done ++ ps.flatMap (Prog.stores m₀)).Perm (ps₀.flatMap (Prog.stores m₀))
  loads : ∀ a ∈ ps.flatMap (Prog.loads m₀), a ∈ ps₀.flatMap (Prog.loads m₀)
  inputs : ∀ a ∈ ps₀.flatMap (Prog.loads m₀), m a = m₀ a
  written : ∀ w ∈ done, m w.1 = w.2

/-- A load sees the initial value; a store is one of those determined by the initial memory. -/
def Foreseen (m₀ : A → V) (ps₀ : List (Prog A V Unit)) : Access A V → Prop
  | .load a v => a ∈ ps₀.flatMap (Prog.loads m₀) ∧ v = m₀ a
  | .store a v => (a, v) ∈ ps₀.flatMap (Prog.stores m₀)

section Steps

variable {m₀ m m' : A → V} {ps₀ ps : List (Prog A V Unit)} {done : List (A × V)}
  {p p' : Prog A V Unit} {i : ℕ} {acc : Access A V}

theorem progress_refl : Progress m₀ ps₀ [] m₀ ps₀ where
  stores := List.Perm.refl _
  loads := fun _ h => h
  inputs := fun _ _ => rfl
  written := fun _ h => absurd h List.not_mem_nil

theorem perm_cons_eraseIdx {β : Type} {xs : List β} {x : β} {i : ℕ} (h : xs[i]? = some x) :
    xs.Perm (x :: xs.eraseIdx i) := by
  obtain ⟨hi, rfl⟩ := List.getElem?_eq_some_iff.mp h
  exact (List.getElem_cons_eraseIdx_perm hi).symm

theorem perm_set {β : Type} {xs : List β} {x y : β} {i : ℕ} (h : xs[i]? = some x) :
    (xs.set i y).Perm (y :: xs.eraseIdx i) := by
  obtain ⟨hi, -⟩ := List.getElem?_eq_some_iff.mp h
  exact List.set_perm_cons_eraseIdx hi y

theorem Progress.mem_stores (h : Progress m₀ ps₀ done m ps) {w : A × V}
    (hw : w ∈ done ++ ps.flatMap (Prog.stores m₀)) : w ∈ ps₀.flatMap (Prog.stores m₀) :=
  h.stores.mem_iff.mp hw

theorem Progress.congr (h : Progress m₀ ps₀ done m ps)
    (hl : ∀ a ∈ ps₀.flatMap (Prog.loads m₀), m' a = m a)
    (hs : ∀ w ∈ ps₀.flatMap (Prog.stores m₀), m' w.1 = m w.1) : Progress m₀ ps₀ done m' ps where
  stores := h.stores
  loads := h.loads
  inputs := fun a ha => (hl a ha).trans (h.inputs a ha)
  written := fun w hw => (hs w (h.mem_stores (List.mem_append_left _ hw))).trans (h.written w hw)

theorem Progress.load (h : Progress m₀ ps₀ done m ps) {a : A} {k : V → Prog A V Unit}
    (hi : ps[i]? = some (.load a k)) :
    Progress m₀ ps₀ done m (ps.set i (k (m a))) ∧ Foreseen m₀ ps₀ (.load a (m a)) := by
  have hmem : Prog.load a k ∈ ps := List.mem_of_getElem? hi
  have ha : a ∈ ps₀.flatMap (Prog.loads m₀) :=
    h.loads a (List.mem_flatMap.mpr ⟨_, hmem, List.mem_cons_self⟩)
  have hval := h.inputs a ha
  have hstores : ((ps.set i (k (m a))).flatMap (Prog.stores m₀)).Perm
      (ps.flatMap (Prog.stores m₀)) := by
    refine ((perm_set hi).flatMap_right _).trans ?_
    refine List.Perm.trans ?_ ((perm_cons_eraseIdx hi).flatMap_right _).symm
    simp [Prog.stores, hval]
  refine ⟨⟨?_, ?_, h.inputs, h.written⟩, ha, hval⟩
  · exact (List.Perm.append_left done hstores).trans h.stores
  · intro b hb
    obtain ⟨q, hq, hbq⟩ := List.mem_flatMap.mp hb
    rcases List.mem_cons.mp ((perm_set hi).mem_iff.mp hq) with rfl | hq
    · refine h.loads b (List.mem_flatMap.mpr ⟨_, hmem, ?_⟩)
      exact List.mem_cons_of_mem _ (by rwa [hval] at hbq)
    · exact h.loads b (List.mem_flatMap.mpr
        ⟨q, (perm_cons_eraseIdx hi).mem_iff.mpr (List.mem_cons_of_mem _ hq), hbq⟩)

theorem Progress.store [DecidableEq A] (hsep : Separate m₀ ps₀) (h : Progress m₀ ps₀ done m ps) {a : A} {v : V}
    (hi : ps[i]? = some (.store a v p)) :
    Progress m₀ ps₀ (done ++ [(a, v)]) (Function.update m a v) (ps.set i p) ∧
      Foreseen m₀ ps₀ (.store a v) := by
  have hmem : Prog.store a v p ∈ ps := List.mem_of_getElem? hi
  have hw : (a, v) ∈ ps₀.flatMap (Prog.stores m₀) := h.mem_stores
    (List.mem_append_right _ (List.mem_flatMap.mpr ⟨_, hmem, List.mem_cons_self⟩))
  have hperm : (ps.flatMap (Prog.stores m₀)).Perm
      ((a, v) :: (ps.set i p).flatMap (Prog.stores m₀)) := by
    refine ((perm_cons_eraseIdx hi).flatMap_right _).trans ?_
    refine List.Perm.trans ?_ (((perm_set hi).flatMap_right _).cons _).symm
    simp [Prog.stores]
  have hstores : ((done ++ [(a, v)]) ++ (ps.set i p).flatMap (Prog.stores m₀)).Perm
      (ps₀.flatMap (Prog.stores m₀)) := by
    rw [List.append_assoc]
    exact ((List.Perm.append_left done hperm).symm).trans h.stores
  -- The address was not stored before: the stores that are left name it once.
  have hnew : ∀ w ∈ done, w.1 ≠ a := by
    have hnd := (hstores.map Prod.fst).nodup_iff.mpr hsep.nodup
    simp only [List.map_append, List.map_cons, List.map_nil, List.append_assoc,
      List.nodup_append] at hnd
    intro w hwd he
    exact hnd.2.2 w.1 (List.mem_map_of_mem hwd) a (by simp) he
  refine ⟨⟨hstores, ?_, ?_, ?_⟩, hw⟩
  · intro b hb
    obtain ⟨q, hq, hbq⟩ := List.mem_flatMap.mp hb
    rcases List.mem_cons.mp ((perm_set hi).mem_iff.mp hq) with rfl | hq
    · exact h.loads b (List.mem_flatMap.mpr ⟨_, hmem, hbq⟩)
    · exact h.loads b (List.mem_flatMap.mpr
        ⟨q, (perm_cons_eraseIdx hi).mem_iff.mpr (List.mem_cons_of_mem _ hq), hbq⟩)
  · intro b hb
    have hne : b ≠ a := fun he => hsep.apart b hb (he ▸ List.mem_map_of_mem hw)
    rw [Function.update_of_ne hne]
    exact h.inputs b hb
  · intro w hwd
    rcases List.mem_append.mp hwd with hwd | hwd
    · rw [Function.update_of_ne (hnew w hwd)]
      exact h.written w hwd
    · obtain rfl := List.mem_singleton.mp hwd
      exact Function.update_self ..

/-- One access of one program. -/
theorem Progress.step [DecidableEq A] (hsep : Separate m₀ ps₀) (h : Progress m₀ ps₀ done m ps)
    (hi : ps[i]? = some p) (hp : p.step m = some (acc, m', p')) :
    Progress m₀ ps₀ (done ++ acc.stored.toList) m' (ps.set i p') ∧ Foreseen m₀ ps₀ acc := by
  cases p with
  | ret r => simp [Prog.step] at hp
  | load a k =>
    simp only [Prog.step, Option.some.injEq, Prod.mk.injEq] at hp
    obtain ⟨rfl, rfl, rfl⟩ := hp
    simpa [Access.stored] using h.load hi
  | store a v k =>
    simp only [Prog.step, Option.some.injEq, Prod.mk.injEq] at hp
    obtain ⟨rfl, rfl, rfl⟩ := hp
    exact h.store hsep hi

/-- Once every program has returned, all its stores are in memory. -/
theorem Progress.finished (h : Progress m₀ ps₀ done m ps) (hf : ∀ p ∈ ps, p.finished = true) :
    done.Perm (ps₀.flatMap (Prog.stores m₀)) ∧ ∀ w ∈ ps₀.flatMap (Prog.stores m₀), m w.1 = w.2 := by
  have hnil : ps.flatMap (Prog.stores m₀) = [] := by
    rw [List.flatMap_eq_nil_iff]
    intro p hp
    obtain ⟨r, rfl⟩ := Prog.finished_iff.mp (hf p hp)
    rfl
  have hperm := h.stores
  rw [hnil, List.append_nil] at hperm
  exact ⟨hperm, fun w hw => h.written w (hperm.mem_iff.mpr hw)⟩

end Steps

/-! ### Closed systems -/

structure System (A V : Type) where
  memory : A → V
  progs : List (Prog A V Unit)
  trace : List (Access A V)

namespace System

variable [DecidableEq A]

def start (m : A → V) (ps : List (Prog A V Unit)) : System A V := ⟨m, ps, []⟩

/-- Program `i` makes its next access; an index without one does nothing. -/
def step (s : System A V) (i : ℕ) : System A V :=
  match s.progs[i]? with
  | none => s
  | some p =>
    match p.step s.memory with
    | none => s
    | some (acc, memory, p) => ⟨memory, s.progs.set i p, s.trace ++ [acc]⟩

def run (s : System A V) (schedule : List ℕ) : System A V := schedule.foldl step s

def finished (s : System A V) : Bool := s.progs.all Prog.finished

def stored (s : System A V) : List (A × V) := s.trace.filterMap Access.stored

/-- What holds of a system between two accesses. -/
structure Inv (m₀ : A → V) (ps₀ : List (Prog A V Unit)) (s : System A V) : Prop where
  progress : Progress m₀ ps₀ s.stored s.memory s.progs
  trace : ∀ acc ∈ s.trace, Foreseen m₀ ps₀ acc
  untouched : ∀ a, a ∉ (ps₀.flatMap (Prog.stores m₀)).map Prod.fst → s.memory a = m₀ a

variable {m₀ : A → V} {ps₀ : List (Prog A V Unit)} {s : System A V}

omit [DecidableEq A] in
theorem inv_start : Inv m₀ ps₀ (start m₀ ps₀) where
  progress := progress_refl
  trace := fun _ h => absurd h List.not_mem_nil
  untouched := fun _ _ => rfl

theorem step_untouched {m m' : A → V} {p p' : Prog A V Unit} {acc : Access A V} {a : A}
    (hp : p.step m = some (acc, m', p')) (ha : ∀ w, acc.stored = some w → w.1 ≠ a) :
    m' a = m a := by
  cases p with
  | ret r => simp [Prog.step] at hp
  | load b k =>
    simp only [Prog.step, Option.some.injEq, Prod.mk.injEq] at hp
    rw [← hp.2.1]
  | store b v k =>
    simp only [Prog.step, Option.some.injEq, Prod.mk.injEq] at hp
    obtain ⟨rfl, rfl, rfl⟩ := hp
    exact Function.update_of_ne (Ne.symm (ha (b, v) rfl)) v m

theorem inv_step (hsep : Separate m₀ ps₀) (h : Inv m₀ ps₀ s) (i : ℕ) : Inv m₀ ps₀ (s.step i) := by
  unfold step
  cases hi : s.progs[i]? with
  | none => exact h
  | some p =>
    cases hp : p.step s.memory with
    | none => simpa [hp] using h
    | some r =>
      obtain ⟨acc, m', p'⟩ := r
      obtain ⟨hprog, hacc⟩ := h.progress.step hsep hi hp
      simp only [hp]
      refine ⟨?_, ?_, ?_⟩
      · have hs : (⟨m', s.progs.set i p', s.trace ++ [acc]⟩ : System A V).stored =
            s.stored ++ acc.stored.toList := by
          cases acc <;> simp [stored, Access.stored]
        rw [hs]
        exact hprog
      · intro b hb
        rcases List.mem_append.mp hb with hb | hb
        · exact h.trace b hb
        · rwa [List.mem_singleton.mp hb]
      · intro a ha
        refine (step_untouched hp ?_).trans (h.untouched a ha)
        rintro ⟨b, v⟩ hw rfl
        cases acc with
        | load c u => simp [Access.stored] at hw
        | store c u =>
          simp only [Access.stored, Option.some.injEq] at hw
          exact ha (List.mem_map_of_mem (hw ▸ hacc))

theorem inv_run (hsep : Separate m₀ ps₀) (h : Inv m₀ ps₀ s) (schedule : List ℕ) :
    Inv m₀ ps₀ (s.run schedule) := by
  induction schedule generalizing s with
  | nil => exact h
  | cons i schedule ih => exact ih (inv_step hsep h i)

/-- Every complete interleaving makes the same stores, and so leaves the same memory. -/
theorem complete_run (hsep : Separate m₀ ps₀) {schedule : List ℕ}
    (hf : ((start m₀ ps₀).run schedule).finished = true) :
    let s := (start m₀ ps₀).run schedule
    s.stored.Perm (ps₀.flatMap (Prog.stores m₀)) ∧
      (∀ w ∈ ps₀.flatMap (Prog.stores m₀), s.memory w.1 = w.2) ∧
      ∀ a, a ∉ (ps₀.flatMap (Prog.stores m₀)).map Prod.fst → s.memory a = m₀ a := by
  have h := inv_run hsep inv_start schedule
  obtain ⟨hperm, hmem⟩ := h.progress.finished (List.all_eq_true.mp hf)
  exact ⟨hperm, hmem, h.untouched⟩

theorem memory_unique (hsep : Separate m₀ ps₀) {xs ys : List ℕ}
    (hx : ((start m₀ ps₀).run xs).finished = true) (hy : ((start m₀ ps₀).run ys).finished = true) :
    ((start m₀ ps₀).run xs).memory = ((start m₀ ps₀).run ys).memory := by
  obtain ⟨-, hwx, hux⟩ := complete_run hsep hx
  obtain ⟨-, hwy, huy⟩ := complete_run hsep hy
  funext a
  by_cases ha : a ∈ (ps₀.flatMap (Prog.stores m₀)).map Prod.fst
  · obtain ⟨w, hw, rfl⟩ := List.mem_map.mp ha
    exact (hwx w hw).trans (hwy w hw).symm
  · exact (hux a ha).trans (huy a ha).symm

theorem run_append (xs ys : List ℕ) : s.run (xs ++ ys) = (s.run xs).run ys :=
  List.foldl_append ..

/-- Program `i` on its own returns after finitely many accesses; the others do not move. -/
theorem finish_one {i : ℕ} {p : Prog A V Unit} (hi : s.progs[i]? = some p) :
    ∃ xs q, (s.run xs).progs = s.progs.set i q ∧ q.finished = true := by
  induction p generalizing s with
  | ret r =>
    refine ⟨[], .ret r, ?_, rfl⟩
    obtain ⟨hlt, hget⟩ := List.getElem?_eq_some_iff.mp hi
    rw [← hget, List.set_getElem_self]
    rfl
  | load a k ih =>
    have hlt := (List.getElem?_eq_some_iff.mp hi).1
    have hs : s.step i = ⟨s.memory, s.progs.set i (k (s.memory a)),
        s.trace ++ [.load a (s.memory a)]⟩ := by
      simp [step, hi, Prog.step]
    obtain ⟨xs, q, hq, hf⟩ := ih (s.memory a) (s := s.step i) (by simp [hs, hlt])
    refine ⟨i :: xs, q, ?_, hf⟩
    change ((s.step i).run xs).progs = _
    rw [hq, hs, List.set_set]
  | store a v k ih =>
    have hlt := (List.getElem?_eq_some_iff.mp hi).1
    have hs : s.step i = ⟨Function.update s.memory a v, s.progs.set i k,
        s.trace ++ [.store a v]⟩ := by
      simp [step, hi, Prog.step]
    obtain ⟨xs, q, hq, hf⟩ := ih (s := s.step i) (by simp [hs, hlt])
    refine ⟨i :: xs, q, ?_, hf⟩
    change ((s.step i).run xs).progs = _
    rw [hq, hs, List.set_set]

theorem finish_below (n : ℕ) :
    ∃ xs, (s.run xs).progs.length = s.progs.length ∧
      ∀ i < n, ∀ p, (s.run xs).progs[i]? = some p → p.finished = true := by
  induction n with
  | zero => exact ⟨[], rfl, fun i hi => absurd hi (Nat.not_lt_zero i)⟩
  | succ n ih =>
    obtain ⟨xs, hlen, hxs⟩ := ih
    cases hn : (s.run xs).progs[n]? with
    | none =>
      refine ⟨xs, hlen, ?_⟩
      intro i hi p hp
      rcases Nat.lt_succ_iff_lt_or_eq.mp hi with hi | rfl
      · exact hxs i hi p hp
      · simp [hn] at hp
    | some p =>
      obtain ⟨ys, q, hq, hf⟩ := finish_one hn
      refine ⟨xs ++ ys, ?_, ?_⟩
      · rw [run_append, hq, List.length_set, hlen]
      · intro i hi p' hp'
        rw [run_append, hq] at hp'
        rcases Nat.lt_succ_iff_lt_or_eq.mp hi with hi | rfl
        · rw [List.getElem?_set_ne (by omega)] at hp'
          exact hxs i hi p' hp'
        · have hlt := (List.getElem?_eq_some_iff.mp hn).1
          rw [List.getElem?_set_self hlt] at hp'
          rwa [← Option.some.inj hp']

/-- From every state some schedule completes. -/
theorem exists_complete : ∃ xs, (s.run xs).finished = true := by
  obtain ⟨xs, hlen, hxs⟩ := finish_below (s := s) s.progs.length
  refine ⟨xs, List.all_eq_true.mpr ?_⟩
  intro p hp
  obtain ⟨i, hi⟩ := List.mem_iff_getElem?.mp hp
  have hlt := (List.getElem?_eq_some_iff.mp hi).1
  exact hxs i (hlen ▸ hlt) p hi

end System
end Interleave
