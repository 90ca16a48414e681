import Mathlib.Data.Nat.Bitwise
import Mathlib.Tactic

/-! The private launcher (`run-private-gpu.py`) and the users that it keeps out of its directory. -/
namespace Gudra.PrivateLauncher

abbrev Ino := ℕ

abbrev Name := String

/-- A file or a directory: owner, group, `st_mode` and, for a directory, its entries. -/
structure Inode where
  uid : ℕ
  gid : ℕ
  mode : ℕ
  entries : Name → Option Ino

structure FileSystem where
  root : Ino
  node : Ino → Option Inode

namespace FileSystem

def put (fs : FileSystem) (ino : Ino) (node : Inode) : FileSystem :=
  { fs with node := fun i => if i = ino then some node else fs.node i }

/-- The directories from `dir` on along a resolved path, the last one included. -/
def resolve (fs : FileSystem) (dir : Ino) : List Name → Option (List Ino)
  | [] => some [dir]
  | name :: rest => do
    let node ← fs.node dir
    let child ← node.entries name
    return dir :: (← fs.resolve child rest)

def stat (fs : FileSystem) (ino : Ino) : Except String Inode :=
  match fs.node ino with
  | some node => .ok node
  | none => .error "No such file or directory"

end FileSystem

def Inode.setEntry (node : Inode) (name : Name) (ino : Option Ino) : Inode :=
  { node with entries := fun n => if n = name then ino else node.entries n }

/-- The condition of the loop, negated: no other user can replace entries. -/
def trusted (uid : ℕ) (info : Inode) : Bool :=
  let mode := info.mode &&& 0o7777
  let protectedShared := info.uid == 0 && info.mode &&& 0o1000 != 0
  !(!(info.uid == 0 || info.uid == uid) || mode &&& 0o022 != 0 && !protectedShared)

/-- The check of the created directory. -/
def isPrivate (uid : ℕ) (info : Inode) : Bool :=
  info.uid == uid && info.mode &&& 0o7777 == 0o700

/-- The loop over the ancestors of the created directory. -/
def checkAncestors (uid : ℕ) (fs : FileSystem) (ancestors : List Ino) : Except String Unit :=
  ancestors.forM fun ancestor => do
    let info ← fs.stat ancestor
    if !trusted uid info then
      throw "Temporary-directory ancestors must prevent other users from replacing entries."

/-- `mkdtemp` in `parent`: an unused inode under an unused name, with the attributes it gets. -/
def mkdtemp (fs : FileSystem) (parent : Ino) (name : Name) (ino : Ino) (uid gid mode : ℕ) :
    Except String FileSystem :=
  match fs.node parent with
  | some node =>
    if (node.entries name).isNone ∧ (fs.node ino).isNone then
      .ok ((fs.put parent (node.setEntry name (some ino))).put ino ⟨uid, gid, mode, fun _ => none⟩)
    else .error "No usable temporary directory name found"
  | none => .error "No such file or directory"

/-- What the launched command gets. -/
structure Launch where
  fs : FileSystem
  directory : List Name
  command : List String
  env : List (String × List Name)

/-- `main` up to the start of the command: `tmp` is the resolved temporary directory, and `mkdtemp`
creates `name`. -/
def main (platform : String) (argv : List String) (uid : ℕ) (fs : FileSystem) (tmp : List Name)
    (name : Name) (ino : Ino) (created : ℕ × ℕ × ℕ) : Except String Launch := do
  if platform ≠ "linux" then
    throw "GPU validation requires Linux; private temp ACLs are not verified on this platform."
  let command := if argv.take 1 = ["--"] then argv.drop 1 else argv
  if command = [] then
    throw "usage: run-private-gpu.py -- <trusted command> [arguments]"
  match fs.resolve fs.root tmp with
  | none => throw "No such file or directory"
  | some ancestors =>
    checkAncestors uid fs ancestors.reverse
    let fs ← mkdtemp fs (ancestors.getLastD fs.root) name ino created.1 created.2.1 created.2.2
    let info ← fs.stat ino
    if !isPrivate uid info then
      throw "JIT temp directory must be owned by this user with mode 0700."
    let directory := tmp ++ [name]
    return ⟨fs, directory, command,
      [("TMPDIR", directory), ("TMP", directory), ("TEMP", directory)]⟩

/-! ### What a user may do -/

structure User where
  uid : ℕ
  groups : ℕ → Bool

/-- Read, write and search permission, by their bits. -/
inductive Access where
  | read
  | write
  | search
deriving DecidableEq

def Access.bit : Access → ℕ
  | read => 2
  | write => 1
  | search => 0

namespace User

/-- The owner's, the group's or the others' bit; root needs none. -/
def permits (u : User) (node : Inode) (access : Access) : Bool :=
  u.uid == 0 ||
    if node.uid = u.uid then node.mode.testBit (access.bit + 6)
    else if u.groups node.gid then node.mode.testBit (access.bit + 3)
    else node.mode.testBit access.bit

def owns (u : User) (node : Inode) : Bool := u.uid == 0 || node.uid == u.uid

/-- Whether an entry of `node` may be removed or replaced: in a sticky directory it takes ownership
of the entry or of the directory. -/
def mayReplace (u : User) (fs : FileSystem) (node : Inode) (name : Name) : Bool :=
  u.permits node .write && (!node.mode.testBit 9 || u.owns node ||
    match node.entries name with
    | some child => ((fs.node child).map u.owns).getD true
    | none => true)

end User

inductive Op where
  | create (dir : Ino) (name : Name) (ino : Ino) (gid mode : ℕ)
  | link (dir : Ino) (name : Name) (ino : Ino)
  | unlink (dir : Ino) (name : Name)
  | rmdir (dir : Ino) (name : Name)
  | rename (dir : Ino) (name : Name) (dir' : Ino) (name' : Name)
  | setAttributes (ino : Ino) (uid gid mode : ℕ)
  | read (dir : Ino) (name : Name)

/-- Removes an entry. -/
def remove (u : User) (fs : FileSystem) (dir : Ino) (name : Name) : Option FileSystem := do
  let node ← fs.node dir
  if u.mayReplace fs node name then some (fs.put dir (node.setEntry name none)) else none

/-- Adds an entry under a new name. -/
def add (u : User) (fs : FileSystem) (dir : Ino) (name : Name) (ino : Ino) : Option FileSystem := do
  let node ← fs.node dir
  if u.permits node .write ∧ (node.entries name).isNone then
    some (fs.put dir (node.setEntry name (some ino)))
  else none

/-- One operation of a user; `none` is a refusal. -/
def step (u : User) (fs : FileSystem) : Op → Option FileSystem
  | .create dir name ino gid mode =>
    if (fs.node ino).isNone then
      add u (fs.put ino ⟨u.uid, gid, mode, fun _ => none⟩) dir name ino
    else none
  | .link dir name ino => add u fs dir name ino
  | .unlink dir name => remove u fs dir name
  | .rmdir dir name => remove u fs dir name
  | .rename dir name dir' name' => do
    let node ← fs.node dir
    let child ← node.entries name
    let fs ← remove u fs dir name
    let target ← fs.node dir'
    if (target.entries name').isSome then
      add u (← remove u fs dir' name') dir' name' child
    else add u fs dir' name' child
  | .setAttributes ino uid gid mode => do
    let node ← fs.node ino
    if u.owns node then some (fs.put ino { node with uid, gid, mode }) else none
  | .read dir name => do
    let node ← fs.node dir
    let _ ← node.entries name
    if u.permits node .read ∨ u.permits node .search then some fs else none

/-- Attempts of several users in any order; a refused one changes nothing. -/
def run (fs : FileSystem) (attempts : List (User × Op)) : FileSystem :=
  attempts.foldl (fun fs attempt => (step attempt.1 fs attempt.2).getD fs) fs

/-- The entries that an operation makes, removes or replaces. -/
def Op.changes : Op → List (Ino × Name)
  | .create dir name _ _ _ => [(dir, name)]
  | .link dir name _ => [(dir, name)]
  | .unlink dir name => [(dir, name)]
  | .rmdir dir name => [(dir, name)]
  | .rename dir name dir' name' => [(dir, name), (dir', name')]
  | .setAttributes _ _ _ _ => []
  | .read _ _ => []

/-- The operation leaves the links of a path, and the attributes of its directories, as they are. -/
def Op.Spares (chain : List Ino) (links : List (Ino × Name)) (op : Op) : Prop :=
  (∀ link ∈ op.changes, link ∉ links) ∧
    ∀ ino uid gid mode, op = .setAttributes ino uid gid mode → ino ∉ chain

/-! ### Permissions -/

section Permissions

variable {uid : ℕ} {u : User} {fs fs' fs'' : FileSystem} {node : Inode} {dir ino : Ino} {name : Name}

/-- Neither root nor the launching user. -/
def User.Other (uid : ℕ) (u : User) : Prop := u.uid ≠ 0 ∧ u.uid ≠ uid

/-- Owned by root or by the launching user. -/
def Inode.Ours (uid : ℕ) (node : Inode) : Prop := node.uid = 0 ∨ node.uid = uid

theorem User.Other.not_owns (hu : u.Other uid) (h : node.Ours uid) : u.owns node = false := by
  have hne : node.uid ≠ u.uid := by
    rcases h with h | h
    · exact fun he => hu.1 (he.symm.trans h)
    · exact fun he => hu.2 (he.symm.trans h)
  simp [User.owns, hu.1, hne]

/-- Others have what the group's or the others' bits give them. -/
theorem User.Other.not_permits (hu : u.Other uid) (h : node.Ours uid) {access : Access}
    (hgroup : node.mode.testBit (access.bit + 3) = false)
    (hother : node.mode.testBit access.bit = false) : u.permits node access = false := by
  have howns := hu.not_owns h
  simp only [User.owns, Bool.or_eq_false_iff, beq_eq_false_iff_ne] at howns
  simp only [User.permits, if_neg howns.2]
  split <;> simp [howns.1, hgroup, hother]

theorem testBit_of_and_eq {mask m : ℕ} (h : node.mode &&& 0o7777 &&& mask = m) {i : ℕ}
    (hi : i < 12) (hmask : mask.testBit i = true) : node.mode.testBit i = m.testBit i := by
  have hbits := congrArg (·.testBit i) h
  have hall : (0o7777 : ℕ).testBit i = true := by
    rw [show (0o7777 : ℕ) = 2 ^ 12 - 1 from rfl, Nat.testBit_two_pow_sub_one]
    exact decide_eq_true hi
  simpa [Nat.testBit_and, hall, hmask] using hbits

/-- A trusted directory is ours, and others cannot write to it or it is root's and sticky. -/
theorem ours_of_trusted (h : trusted uid node = true) : node.Ours uid ∧
    ((∀ u : User, u.Other uid → u.permits node .write = false) ∨ node.mode.testBit 9 = true) := by
  simp only [trusted, Bool.not_eq_true', Bool.or_eq_false_iff, Bool.not_eq_false',
    Bool.and_eq_false_iff, Bool.or_eq_true, beq_iff_eq, bne_eq_false_iff_eq, Bool.and_eq_true,
    bne_iff_ne] at h
  obtain ⟨hours, hwrite | ⟨-, hsticky⟩⟩ := h
  · refine ⟨hours, .inl fun u hu => hu.not_permits hours ?_ ?_⟩
    · exact testBit_of_and_eq hwrite (by decide) (by decide)
    · exact testBit_of_and_eq hwrite (by decide) (by decide)
  · refine ⟨hours, .inr ?_⟩
    rw [show (0o1000 : ℕ) = 2 ^ 9 from rfl, Nat.and_two_pow] at hsticky
    cases hbit : node.mode.testBit 9 with
    | true => rfl
    | false => simp [hbit] at hsticky

/-- Others have no access to a private directory. -/
theorem ours_of_isPrivate (h : isPrivate uid node = true) : node.Ours uid ∧
    ∀ u : User, u.Other uid → ∀ access, u.permits node access = false := by
  simp only [isPrivate, Bool.and_eq_true, beq_iff_eq] at h
  obtain ⟨hours, hmode⟩ := h
  have hmask : node.mode &&& 0o7777 &&& 0o7777 = 0o700 := by
    rw [hmode]
    rfl
  have hbit : ∀ i < 6, node.mode.testBit i = false := by
    intro i hi
    rw [testBit_of_and_eq hmask (by omega) (by interval_cases i <;> decide)]
    interval_cases i <;> decide
  refine ⟨.inr hours, fun u hu access => hu.not_permits (.inr hours) ?_ ?_⟩
  · exact hbit _ (by cases access <;> decide)
  · exact hbit _ (by cases access <;> decide)

end Permissions

/-! ### What others leave alone -/

section Steps

variable {uid : ℕ} {u : User} {fs fs' fs'' : FileSystem} {node : Inode} {dir ino child : Ino}
  {name : Name}

/-- What no operation of others changes: the attributes of our inodes, private directories, and the
entries of trusted directories that lead to our inodes. -/
def Preserves (uid : ℕ) (fs fs' : FileSystem) : Prop :=
  fs'.root = fs.root ∧ ∀ ino node, fs.node ino = some node → node.Ours uid →
    ∃ node', fs'.node ino = some node' ∧ node'.uid = node.uid ∧ node'.mode = node.mode ∧
      (isPrivate uid node = true → node' = node) ∧
      (trusted uid node = true → ∀ name child childNode, node.entries name = some child →
        fs.node child = some childNode → childNode.Ours uid → node'.entries name = some child)

theorem Preserves.refl (uid : ℕ) (fs : FileSystem) : Preserves uid fs fs :=
  ⟨rfl, fun _ node h _ => ⟨node, h, rfl, rfl, fun _ => rfl, fun _ _ _ _ hentry _ _ => hentry⟩⟩

theorem Preserves.trans (h : Preserves uid fs fs') (h' : Preserves uid fs' fs'') :
    Preserves uid fs fs'' := by
  refine ⟨h'.1.trans h.1, fun ino node hnode hours => ?_⟩
  obtain ⟨node', hnode', huid, hmode, hprivate, hentries⟩ := h.2 ino node hnode hours
  have hours' : node'.Ours uid := by
    rw [Inode.Ours, huid]
    exact hours
  obtain ⟨node'', hnode'', huid', hmode', hprivate', hentries'⟩ := h'.2 ino node' hnode' hours'
  refine ⟨node'', hnode'', huid'.trans huid, hmode'.trans hmode, fun hp => ?_, fun ht => ?_⟩
  · obtain rfl := hprivate hp
    exact hprivate' hp
  · intro name child childNode hentry hchild hchildOurs
    obtain ⟨childNode', hchild', hchildUid, -⟩ := h.2 child childNode hchild hchildOurs
    have htrusted' : trusted uid node' = true := by
      rw [trusted, huid, hmode]
      exact ht
    refine hentries' htrusted' name child childNode' ?_ hchild' ?_
    · exact hentries ht name child childNode hentry hchild hchildOurs
    · rw [Inode.Ours, hchildUid]
      exact hchildOurs

/-- Only one inode gets other entries, and those only where others may replace or add them. -/
theorem preserves_setEntry (hu : u.Other uid) (hnode : fs.node dir = some node)
    (hwrite : u.permits node .write = true) {target : Option Ino}
    (hentry : ∀ child childNode, trusted uid node = true → node.entries name = some child →
      fs.node child = some childNode → childNode.Ours uid → target = some child) :
    Preserves uid fs (fs.put dir (node.setEntry name target)) := by
  refine ⟨rfl, fun ino node' hnode' hours => ?_⟩
  by_cases hino : ino = dir
  · subst hino
    obtain rfl : node' = node := Option.some.inj (hnode'.symm.trans hnode)
    refine ⟨_, if_pos rfl, rfl, rfl, fun hp => ?_, fun ht name' child childNode hchild hc ho => ?_⟩
    · rw [(ours_of_isPrivate hp).2 u hu .write] at hwrite
      exact absurd hwrite Bool.false_ne_true
    · by_cases hname : name' = name
      · subst hname
        exact (if_pos rfl).trans (hentry child childNode ht hchild hc ho)
      · exact (if_neg hname).trans hchild
  · exact ⟨node', (if_neg hino).trans hnode', rfl, rfl, fun _ => rfl,
      fun _ _ _ _ hentry _ _ => hentry⟩

theorem remove_preserves (hu : u.Other uid) (h : remove u fs dir name = some fs') :
    Preserves uid fs fs' := by
  obtain ⟨node, hnode, h⟩ := Option.bind_eq_some_iff.mp h
  split at h
  case isFalse => exact nomatch h
  case isTrue hreplace =>
    obtain rfl := Option.some.inj h
    simp only [User.mayReplace, Bool.and_eq_true] at hreplace
    refine preserves_setEntry hu hnode hreplace.1 fun child childNode ht hentry hchild hours => ?_
    -- A sticky directory that is not theirs, and an entry that is not theirs either.
    obtain ⟨hnodeOurs, hwrite | hsticky⟩ := ours_of_trusted ht
    · rw [hwrite u hu] at hreplace
      exact absurd hreplace.1 Bool.false_ne_true
    · simp [hsticky, hu.not_owns hnodeOurs, hentry, hchild, hu.not_owns hours] at hreplace

theorem add_preserves (hu : u.Other uid) (h : add u fs dir name ino = some fs') :
    Preserves uid fs fs' := by
  obtain ⟨node, hnode, h⟩ := Option.bind_eq_some_iff.mp h
  split at h
  case isFalse => exact nomatch h
  case isTrue hadd =>
    obtain rfl := Option.some.inj h
    refine preserves_setEntry hu hnode hadd.1 fun child _ _ hentry _ _ => ?_
    simp [hentry] at hadd

theorem put_preserves (hnew : ∀ node', fs.node ino = some node' → ¬ node'.Ours uid) :
    Preserves uid fs (fs.put ino node) := by
  refine ⟨rfl, fun i node' hnode' hours => ?_⟩
  have hne : i ≠ ino := by
    rintro rfl
    exact hnew node' hnode' hours
  exact ⟨node', (if_neg hne).trans hnode', rfl, rfl, fun _ => rfl,
    fun _ _ _ _ hentry _ _ => hentry⟩

/-- One operation of another user. -/
theorem step_preserves (hu : u.Other uid) {op : Op} (h : step u fs op = some fs') :
    Preserves uid fs fs' := by
  cases op with
  | create dir name ino gid mode =>
    simp only [step, Option.ite_none_right_eq_some] at h
    obtain ⟨hnew, h⟩ := h
    have hnone : fs.node ino = none := Option.isNone_iff_eq_none.mp hnew
    exact (put_preserves fun node' hnode' => nomatch hnone.symm.trans hnode').trans
      (add_preserves hu h)
  | link dir name ino => exact add_preserves hu h
  | unlink dir name => exact remove_preserves hu h
  | rmdir dir name => exact remove_preserves hu h
  | rename dir name dir' name' =>
    obtain ⟨node, -, h⟩ := Option.bind_eq_some_iff.mp h
    obtain ⟨child, -, h⟩ := Option.bind_eq_some_iff.mp h
    obtain ⟨fs₁, hremove, h⟩ := Option.bind_eq_some_iff.mp h
    obtain ⟨target, -, h⟩ := Option.bind_eq_some_iff.mp h
    split at h
    case isTrue =>
      obtain ⟨fs₂, hreplace, h⟩ := Option.bind_eq_some_iff.mp h
      exact ((remove_preserves hu hremove).trans (remove_preserves hu hreplace)).trans
        (add_preserves hu h)
    case isFalse => exact (remove_preserves hu hremove).trans (add_preserves hu h)
  | setAttributes ino owner gid mode =>
    obtain ⟨node, hnode, h⟩ := Option.bind_eq_some_iff.mp h
    rw [Option.ite_none_right_eq_some] at h
    obtain ⟨howns, h⟩ := h
    obtain rfl := Option.some.inj h
    refine put_preserves fun node' hnode' hours => ?_
    obtain rfl : node' = node := Option.some.inj (hnode'.symm.trans hnode)
    rw [hu.not_owns hours] at howns
    exact absurd howns Bool.false_ne_true
  | read dir name =>
    obtain ⟨node, -, h⟩ := Option.bind_eq_some_iff.mp h
    obtain ⟨-, -, h⟩ := Option.bind_eq_some_iff.mp h
    rw [Option.ite_none_right_eq_some] at h
    obtain rfl := Option.some.inj h.2
    exact .refl uid fs

/-- Any attempts of others, in any order. -/
theorem run_preserves {attempts : List (User × Op)} (hothers : ∀ a ∈ attempts, a.1.Other uid) :
    Preserves uid fs (run fs attempts) := by
  induction attempts generalizing fs with
  | nil => exact .refl uid fs
  | cons a attempts ih =>
    have hrest : Preserves uid ((step a.1 fs a.2).getD fs) (run fs (a :: attempts)) :=
      ih fun b hb => hothers b (List.mem_cons_of_mem _ hb)
    refine Preserves.trans ?_ hrest
    cases hstep : step a.1 fs a.2 with
    | none => exact .refl uid fs
    | some fs' => exact step_preserves (hothers a List.mem_cons_self) hstep

end Steps

section Spared

variable {u : User} {fs fs' fs'' : FileSystem} {node : Inode} {dir ino : Ino} {name : Name}
  {chain : List Ino} {links : List (Ino × Name)} {target : Option Ino}

/-- The directories of a path keep their attributes, and their entries on the path. -/
structure Kept (chain : List Ino) (links : List (Ino × Name)) (fs fs' : FileSystem) : Prop where
  root : fs'.root = fs.root
  nodes : ∀ d ∈ chain, ∀ node, fs.node d = some node → ∃ node', fs'.node d = some node' ∧
    node'.uid = node.uid ∧ node'.mode = node.mode ∧
      ∀ n, (d, n) ∈ links → node'.entries n = node.entries n

theorem Kept.refl : Kept chain links fs fs :=
  ⟨rfl, fun _ _ node hnode => ⟨node, hnode, rfl, rfl, fun _ _ => rfl⟩⟩

theorem Kept.trans (h : Kept chain links fs fs') (h' : Kept chain links fs' fs'') :
    Kept chain links fs fs'' := by
  refine ⟨h'.root.trans h.root, fun d hd node hnode => ?_⟩
  obtain ⟨node', hnode', huid, hmode, hentries⟩ := h.nodes d hd node hnode
  obtain ⟨node'', hnode'', huid', hmode', hentries'⟩ := h'.nodes d hd node' hnode'
  exact ⟨node'', hnode'', huid'.trans huid, hmode'.trans hmode,
    fun n hn => (hentries' n hn).trans (hentries n hn)⟩

theorem kept_setEntry (hnode : fs.node dir = some node) (hlink : (dir, name) ∉ links) :
    Kept chain links fs (fs.put dir (node.setEntry name target)) := by
  refine ⟨rfl, fun d _ node' hnode' => ?_⟩
  by_cases hd : d = dir
  · subst hd
    obtain rfl : node' = node := Option.some.inj (hnode'.symm.trans hnode)
    refine ⟨_, if_pos rfl, rfl, rfl, fun n hn => if_neg ?_⟩
    rintro rfl
    exact hlink hn
  · exact ⟨node', (if_neg hd).trans hnode', rfl, rfl, fun _ _ => rfl⟩

theorem kept_put (hino : fs.node ino = none ∨ ino ∉ chain) :
    Kept chain links fs (fs.put ino node) := by
  refine ⟨rfl, fun d hd node' hnode' => ⟨node', (if_neg ?_).trans hnode', rfl, rfl, fun _ _ => rfl⟩⟩
  rintro rfl
  rcases hino with hnone | hnot
  · cases hnone.symm.trans hnode'
  · exact hnot hd

theorem remove_kept (hlink : (dir, name) ∉ links) (h : remove u fs dir name = some fs') :
    Kept chain links fs fs' := by
  obtain ⟨node, hnode, h⟩ := Option.bind_eq_some_iff.mp h
  rw [Option.ite_none_right_eq_some] at h
  obtain rfl := Option.some.inj h.2
  exact kept_setEntry hnode hlink

theorem add_kept (hlink : (dir, name) ∉ links) (h : add u fs dir name ino = some fs') :
    Kept chain links fs fs' := by
  obtain ⟨node, hnode, h⟩ := Option.bind_eq_some_iff.mp h
  rw [Option.ite_none_right_eq_some] at h
  obtain rfl := Option.some.inj h.2
  exact kept_setEntry hnode hlink

/-- One operation of anyone beside the path. -/
theorem step_kept {op : Op} (hop : op.Spares chain links) (h : step u fs op = some fs') :
    Kept chain links fs fs' := by
  obtain ⟨hlinks, hattributes⟩ := hop
  cases op with
  | create dir name ino gid mode =>
    rw [step, Option.ite_none_right_eq_some] at h
    obtain ⟨hnew, h⟩ := h
    exact (kept_put (.inl (Option.isNone_iff_eq_none.mp hnew))).trans
      (add_kept (hlinks _ (List.mem_singleton_self _)) h)
  | link dir name ino => exact add_kept (hlinks _ (List.mem_singleton_self _)) h
  | unlink dir name => exact remove_kept (hlinks _ (List.mem_singleton_self _)) h
  | rmdir dir name => exact remove_kept (hlinks _ (List.mem_singleton_self _)) h
  | rename dir name dir' name' =>
    have hsource := hlinks _ List.mem_cons_self
    have htarget := hlinks _ (List.mem_cons_of_mem _ (List.mem_singleton_self _))
    obtain ⟨node, -, h⟩ := Option.bind_eq_some_iff.mp h
    obtain ⟨child, -, h⟩ := Option.bind_eq_some_iff.mp h
    obtain ⟨fs₁, hremove, h⟩ := Option.bind_eq_some_iff.mp h
    obtain ⟨target, -, h⟩ := Option.bind_eq_some_iff.mp h
    split at h
    case isTrue =>
      obtain ⟨fs₂, hreplace, h⟩ := Option.bind_eq_some_iff.mp h
      exact ((remove_kept hsource hremove).trans (remove_kept htarget hreplace)).trans
        (add_kept htarget h)
    case isFalse => exact (remove_kept hsource hremove).trans (add_kept htarget h)
  | setAttributes ino owner gid mode =>
    obtain ⟨node, -, h⟩ := Option.bind_eq_some_iff.mp h
    rw [Option.ite_none_right_eq_some] at h
    obtain rfl := Option.some.inj h.2
    exact kept_put (.inr (hattributes _ _ _ _ rfl))
  | read dir name =>
    obtain ⟨node, -, h⟩ := Option.bind_eq_some_iff.mp h
    obtain ⟨-, -, h⟩ := Option.bind_eq_some_iff.mp h
    rw [Option.ite_none_right_eq_some] at h
    obtain rfl := Option.some.inj h.2
    exact .refl

end Spared

/-! ### The path to the private directory -/

section Paths

variable {uid : ℕ} {u : User} {fs fs' : FileSystem} {dir ino : Ino} {name : Name}
  {names : List Name} {chain : List Ino}

/-- A path of trusted directories, each leading to the next, with a private one at its end. -/
inductive Guarded (uid : ℕ) (fs : FileSystem) : Ino → List Name → List Ino → Prop where
  | last {dir : Ino} {node : Inode} (present : fs.node dir = some node)
      (checked : isPrivate uid node = true) : Guarded uid fs dir [] [dir]
  | next {dir child : Ino} {node : Inode} {name : Name} {names : List Name} {chain : List Ino}
      (present : fs.node dir = some node) (checked : trusted uid node = true)
      (entry : node.entries name = some child) (rest : Guarded uid fs child names chain) :
      Guarded uid fs dir (name :: names) (dir :: chain)

theorem Guarded.resolve (h : Guarded uid fs dir names chain) : fs.resolve dir names = some chain := by
  induction h with
  | last => rfl
  | next present _ entry _ ih => simp [FileSystem.resolve, present, entry, ih]

theorem Guarded.ours (h : Guarded uid fs dir names chain) :
    ∃ node, fs.node dir = some node ∧ node.Ours uid := by
  cases h with
  | last present checked => exact ⟨_, present, (ours_of_isPrivate checked).1⟩
  | next present checked => exact ⟨_, present, (ours_of_trusted checked).1⟩

/-- Others leave a guarded path as it is, and its private directory. -/
theorem Guarded.preserved (h : Guarded uid fs dir names chain) (hp : Preserves uid fs fs') :
    Guarded uid fs' dir names chain := by
  induction h with
  | last present checked =>
    obtain ⟨node', hnode', -, -, hsame, -⟩ := hp.2 _ _ present (ours_of_isPrivate checked).1
    obtain rfl := hsame checked
    exact .last hnode' checked
  | next present checked entry rest ih =>
    obtain ⟨node', hnode', huid, hmode, -, hentries⟩ :=
      hp.2 _ _ present (ours_of_trusted checked).1
    obtain ⟨childNode, hchild, hours⟩ := rest.ours
    refine .next hnode' ?_ (hentries checked _ _ _ entry hchild hours) ih
    rw [trusted, huid, hmode]
    exact checked

theorem Guarded.kept {chain' : List Ino} {links : List (Ino × Name)}
    (h : Guarded uid fs dir names chain) (hk : Kept chain' links fs fs') (hchain : chain ⊆ chain')
    (hlinks : chain.zip names ⊆ links) : Guarded uid fs' dir names chain := by
  induction h with
  | last present checked =>
    obtain ⟨node', hnode', huid, hmode, -⟩ := hk.nodes _ (hchain List.mem_cons_self) _ present
    refine .last hnode' ?_
    rw [isPrivate, huid, hmode]
    exact checked
  | next present checked entry rest ih =>
    obtain ⟨node', hnode', huid, hmode, hentries⟩ :=
      hk.nodes _ (hchain List.mem_cons_self) _ present
    rw [List.zip_cons_cons, List.cons_subset] at hlinks
    refine .next hnode' ?_ ((hentries _ hlinks.1).trans entry)
      (ih (fun d hd => hchain (List.mem_cons_of_mem _ hd)) hlinks.2)
    rw [trusted, huid, hmode]
    exact checked

/-- Others anywhere, and anyone beside the path, leave the path as it is. -/
theorem Guarded.run (h : Guarded uid fs fs.root names chain) {attempts : List (User × Op)}
    (hattempts : ∀ a ∈ attempts, a.1.Other uid ∨ a.2.Spares chain (chain.zip names)) :
    Guarded uid (run fs attempts) (run fs attempts).root names chain := by
  induction attempts generalizing fs with
  | nil => exact h
  | cons a attempts ih =>
    have hnext : Guarded uid ((step a.1 fs a.2).getD fs) ((step a.1 fs a.2).getD fs).root
        names chain := by
      cases hstep : step a.1 fs a.2 with
      | none => exact h
      | some fs' =>
        rcases hattempts a List.mem_cons_self with hother | hspares
        · have hp := step_preserves hother hstep
          exact hp.1.symm ▸ h.preserved hp
        · have hk := step_kept hspares hstep
          exact hk.root.symm ▸ h.kept hk (List.Subset.refl _) (List.Subset.refl _)
    exact ih hnext fun b hb => hattempts b (List.mem_cons_of_mem _ hb)

/-- What others cannot do to a link of the path. -/
theorem Guarded.link (h : Guarded uid fs dir names chain) {d : Ino} {n : Name}
    (hlink : (d, n) ∈ chain.zip names) : ∃ node, fs.node d = some node ∧
      (node.entries n).isSome ∧ ∀ u : User, u.Other uid → u.mayReplace fs node n = false := by
  induction h with
  | last => simp at hlink
  | next present checked entry rest ih =>
    rw [List.zip_cons_cons, List.mem_cons, Prod.mk.injEq] at hlink
    rcases hlink with ⟨rfl, rfl⟩ | hlink
    · refine ⟨_, present, by rw [entry]; rfl, fun u hu => ?_⟩
      obtain ⟨childNode, hchild, hchildOurs⟩ := rest.ours
      obtain ⟨hours, hwrite | hsticky⟩ := ours_of_trusted checked
      · simp [User.mayReplace, hwrite u hu]
      · simp [User.mayReplace, hsticky, hu.not_owns hours, entry, hchild, hu.not_owns hchildOurs]
    · exact ih hlink

theorem Guarded.mem (h : Guarded uid fs dir names chain) {d : Ino} (hd : d ∈ chain) :
    ∃ node, fs.node d = some node ∧ node.Ours uid := by
  induction h with
  | last present checked =>
    obtain rfl := List.mem_singleton.mp hd
    exact ⟨_, present, (ours_of_isPrivate checked).1⟩
  | next present checked _ _ ih =>
    rcases List.mem_cons.mp hd with rfl | hd
    · exact ⟨_, present, (ours_of_trusted checked).1⟩
    · exact ih hd

theorem Guarded.private (h : Guarded uid fs dir names chain) (hlast : chain.getLast? = some ino) :
    ∃ node, fs.node ino = some node ∧ isPrivate uid node = true := by
  induction h with
  | last present checked =>
    obtain rfl := Option.some.inj hlast
    exact ⟨_, present, checked⟩
  | next _ _ _ rest ih =>
    refine ih ?_
    cases rest <;> simpa using hlast

/-- Others leave the private directory and its entries alone. -/
theorem Guarded.private_eq (h : Guarded uid fs dir names chain) (hlast : chain.getLast? = some ino)
    (hp : Preserves uid fs fs') : fs'.node ino = fs.node ino := by
  obtain ⟨node, hnode, hchecked⟩ := h.private hlast
  obtain ⟨node', hnode', -, -, hsame, -⟩ := hp.2 ino node hnode (ours_of_isPrivate hchecked).1
  rw [hnode', hnode, hsame hchecked]

end Paths

section Refusals

variable {uid : ℕ} {u : User} {fs : FileSystem} {node : Inode} {dir ino : Ino} {name : Name}
  {names : List Name} {chain : List Ino}

/-- An entry, present or not, that others can neither make nor replace. -/
def Locked (uid : ℕ) (fs : FileSystem) (dir : Ino) (name : Name) : Prop :=
  ∃ node, fs.node dir = some node ∧ ∀ u : User, u.Other uid →
    u.mayReplace fs node name = false ∧
      (u.permits node .write = false ∨ (node.entries name).isSome = true)

theorem Locked.remove (h : Locked uid fs dir name) (hu : u.Other uid) :
    remove u fs dir name = none := by
  obtain ⟨node, hnode, hlocked⟩ := h
  simp [PrivateLauncher.remove, hnode, (hlocked u hu).1]

theorem Locked.add (h : Locked uid fs dir name) (hu : u.Other uid) :
    add u fs dir name ino = none := by
  obtain ⟨node, hnode, hlocked⟩ := h
  rcases (hlocked u hu).2 with hwrite | hentry
  · simp [PrivateLauncher.add, hnode, hwrite]
  · have hsome : node.entries name ≠ none := Option.isSome_iff_ne_none.mp hentry
    simp [PrivateLauncher.add, hnode, hsome]

/-- What stays locked is refused to every operation. -/
theorem step_locked (hu : u.Other uid) {op : Op} (hop : (dir, name) ∈ op.changes)
    (h : ∀ fs', Preserves uid fs fs' → Locked uid fs' dir name) : step u fs op = none := by
  have hnow := h fs (.refl uid fs)
  cases op with
  | create d n ino gid mode =>
    obtain ⟨rfl, rfl⟩ := Prod.mk.inj (List.mem_singleton.mp hop)
    simp only [step, ite_eq_right_iff]
    intro hnew
    have hnone : fs.node ino = none := Option.isNone_iff_eq_none.mp hnew
    exact (h _ (put_preserves fun node' hnode' => nomatch hnone.symm.trans hnode')).add hu
  | link d n ino =>
    obtain ⟨rfl, rfl⟩ := Prod.mk.inj (List.mem_singleton.mp hop)
    exact hnow.add hu
  | unlink d n =>
    obtain ⟨rfl, rfl⟩ := Prod.mk.inj (List.mem_singleton.mp hop)
    exact hnow.remove hu
  | rmdir d n =>
    obtain ⟨rfl, rfl⟩ := Prod.mk.inj (List.mem_singleton.mp hop)
    exact hnow.remove hu
  | rename d n d' n' =>
    refine Option.eq_none_iff_forall_ne_some.mpr fun fs' hstep => ?_
    obtain ⟨node, -, hstep⟩ := Option.bind_eq_some_iff.mp hstep
    obtain ⟨child, -, hstep⟩ := Option.bind_eq_some_iff.mp hstep
    obtain ⟨fs₁, hremove, hstep⟩ := Option.bind_eq_some_iff.mp hstep
    obtain ⟨target, -, hstep⟩ := Option.bind_eq_some_iff.mp hstep
    rcases List.mem_cons.mp hop with he | hop
    · obtain ⟨rfl, rfl⟩ := Prod.mk.inj he
      rw [hnow.remove hu] at hremove
      exact nomatch hremove
    · -- The target is still locked after the source is gone.
      obtain ⟨rfl, rfl⟩ := Prod.mk.inj (List.mem_singleton.mp hop)
      have hlater := h fs₁ (remove_preserves hu hremove)
      split at hstep
      case isTrue =>
        rw [hlater.remove hu] at hstep
        exact nomatch hstep
      case isFalse =>
        rw [hlater.add hu] at hstep
        exact nomatch hstep
  | setAttributes => exact absurd hop List.not_mem_nil
  | read => exact absurd hop List.not_mem_nil

theorem Guarded.locked (h : Guarded uid fs dir names chain) (hlast : chain.getLast? = some ino)
    {d : Ino} {n : Name} (hlink : (d, n) ∈ chain.zip names ∨ d = ino) : Locked uid fs d n := by
  rcases hlink with hlink | rfl
  · obtain ⟨node, hnode, hentry, hreplace⟩ := h.link hlink
    exact ⟨node, hnode, fun u hu => ⟨hreplace u hu, .inr hentry⟩⟩
  · obtain ⟨node, hnode, hchecked⟩ := h.private hlast
    have hwrite := fun u hu => (ours_of_isPrivate hchecked).2 u hu .write
    exact ⟨node, hnode, fun u hu => ⟨by simp [User.mayReplace, hwrite u hu], .inl (hwrite u hu)⟩⟩

end Refusals

section Launches

variable {uid : ℕ} {fs fs' : FileSystem} {dir ino parent : Ino} {name : Name} {tmp : List Name}
  {chain : List Ino}

theorem stat_eq_ok {node : Inode} (h : fs.stat ino = .ok node) : fs.node ino = some node := by
  simp only [FileSystem.stat] at h
  split at h
  case h_1 hnode => rw [hnode, Except.ok.inj h]
  case h_2 => exact nomatch h

/-- The loop over the ancestors ends only when all are trusted. -/
theorem checkAncestors_ok {ancestors : List Ino} (h : checkAncestors uid fs ancestors = .ok ()) :
    ∀ d ∈ ancestors, ∃ node, fs.node d = some node ∧ trusted uid node = true := by
  induction ancestors with
  | nil => exact fun d hd => absurd hd List.not_mem_nil
  | cons d ancestors ih =>
    simp only [checkAncestors, List.forM_eq_forM, List.forM_cons] at h ih
    cases hstat : fs.stat d with
    | error e => simp [hstat, bind, Except.bind] at h
    | ok node =>
      cases htrusted : trusted uid node with
      | false => simp [hstat, htrusted, bind, Except.bind, throw, throwThe,
          MonadExceptOf.throw] at h
      | true =>
        simp only [hstat, htrusted, bind, Except.bind, Bool.not_true, Bool.false_eq_true,
          if_false, pure, Except.pure] at h
        exact List.forall_mem_cons.mpr ⟨⟨node, stat_eq_ok hstat, htrusted⟩, ih h⟩

theorem mkdtemp_eq_ok {owner gid mode : ℕ} (h : mkdtemp fs parent name ino owner gid mode = .ok fs') :
    ∃ node, fs.node parent = some node ∧ node.entries name = none ∧ fs.node ino = none ∧
      fs' = (fs.put parent (node.setEntry name (some ino))).put ino
        ⟨owner, gid, mode, fun _ => none⟩ := by
  simp only [mkdtemp] at h
  split at h
  case h_1 node hnode =>
    split at h
    case isTrue hnew =>
      exact ⟨node, hnode, Option.isNone_iff_eq_none.mp hnew.1,
        Option.isNone_iff_eq_none.mp hnew.2, (Except.ok.inj h).symm⟩
    case isFalse => exact nomatch h
  case h_2 => exact nomatch h

/-- The created directory ends the path of the checked ones. -/
theorem guarded_mkdtemp {owner gid mode : ℕ} (hchain : fs.resolve dir tmp = some chain)
    (hparent : chain.getLast? = some parent)
    (htrusted : ∀ d ∈ chain, ∃ node, fs.node d = some node ∧ trusted uid node = true)
    (hmkdtemp : mkdtemp fs parent name ino owner gid mode = .ok fs')
    (hprivate : ∃ node, fs'.node ino = some node ∧ isPrivate uid node = true) :
    Guarded uid fs' dir (tmp ++ [name]) (chain ++ [ino]) := by
  obtain ⟨parentNode, hparentNode, hfree, hnew, hfs⟩ := mkdtemp_eq_ok hmkdtemp
  -- Every checked directory is there with its old entries.
  have hkept : ∀ d node, fs.node d = some node → trusted uid node = true →
      ∃ node', fs'.node d = some node' ∧ trusted uid node' = true ∧
        ∀ n child, node.entries n = some child → node'.entries n = some child := by
    intro d node hnode ht
    have hne : d ≠ ino := by
      rintro rfl
      exact nomatch hnew.symm.trans hnode
    by_cases hd : d = parent
    · subst hd
      obtain rfl : node = parentNode := Option.some.inj (hnode.symm.trans hparentNode)
      refine ⟨node.setEntry name (some ino), ?_, ht, fun n child hentry => ?_⟩
      · rw [hfs]
        exact (if_neg hne).trans (if_pos rfl)
      · have hname : n ≠ name := by
          rintro rfl
          exact nomatch hfree.symm.trans hentry
        exact (if_neg hname).trans hentry
    · refine ⟨node, ?_, ht, fun _ _ hentry => hentry⟩
      rw [hfs]
      exact ((if_neg hne).trans (if_neg hd)).trans hnode
  induction tmp generalizing dir chain with
  | nil =>
    obtain rfl := Option.some.inj hchain
    obtain rfl := Option.some.inj hparent
    obtain ⟨node, hnode, ht⟩ := htrusted dir List.mem_cons_self
    obtain ⟨privateNode, hino, hchecked⟩ := hprivate
    have hne : dir ≠ ino := by
      rintro rfl
      exact nomatch hnew.symm.trans hnode
    obtain rfl : node = parentNode := Option.some.inj (hnode.symm.trans hparentNode)
    refine Guarded.next ?_ (show trusted uid (node.setEntry name (some ino)) = true from ht)
      (if_pos rfl) (.last hino hchecked)
    rw [hfs]
    exact (if_neg hne).trans (if_pos rfl)
  | cons n tmp ih =>
    obtain ⟨node, hnode, hrest⟩ := Option.bind_eq_some_iff.mp hchain
    obtain ⟨child, hentry, hrest⟩ := Option.bind_eq_some_iff.mp hrest
    obtain ⟨chain, hresolve, hcons⟩ := Option.bind_eq_some_iff.mp hrest
    obtain rfl := Option.some.inj hcons
    obtain ⟨node₁, hnode₁, ht⟩ := htrusted dir List.mem_cons_self
    obtain rfl : node = node₁ := Option.some.inj (hnode.symm.trans hnode₁)
    obtain ⟨node', hnode', ht', hentries⟩ := hkept dir node hnode ht
    refine .next hnode' ht' (hentries n child hentry) (ih hresolve ?_ fun d hd => ?_)
    · cases chain with
      | nil => cases tmp <;> simp [FileSystem.resolve, Option.bind_eq_some_iff] at hresolve
      | cons d chain => simpa using hparent
    · exact htrusted d (List.mem_cons_of_mem _ hd)

theorem bind_ok {α β : Type} {x : Except String α} {f : α → Except String β} {b : β}
    (h : (x >>= f) = .ok b) : ∃ a, x = .ok a ∧ f a = .ok b := by
  cases x with
  | error e => exact nomatch h
  | ok a => exact ⟨a, rfl, h⟩

/-- A launch has a guarded path to its directory. -/
theorem guarded_main {platform : String} {argv : List String} {created : ℕ × ℕ × ℕ}
    {launch : Launch} (h : main platform argv uid fs tmp name ino created = .ok launch) :
    ∃ chain, Guarded uid launch.fs launch.fs.root (tmp ++ [name]) chain ∧
      chain.getLast? = some ino := by
  simp only [main] at h
  by_cases hplatform : platform ≠ "linux"
  · rw [if_pos hplatform] at h
    exact nomatch h
  rw [if_neg hplatform] at h
  by_cases hcommand : (if argv.take 1 = ["--"] then argv.drop 1 else argv) = []
  · rw [if_pos hcommand] at h
    exact nomatch h
  rw [if_neg hcommand] at h
  cases hresolve : fs.resolve fs.root tmp with
  | none =>
    rw [hresolve] at h
    exact nomatch h
  | some ancestors =>
    rw [hresolve] at h
    obtain ⟨⟨⟩, hcheck, h⟩ := bind_ok h
    obtain ⟨fs', hmkdtemp, h⟩ := bind_ok h
    obtain ⟨info, hstat, h⟩ := bind_ok h
    by_cases hprivate : (!isPrivate uid info) = true
    · rw [if_pos hprivate] at h
      exact nomatch h
    rw [if_neg hprivate] at h
    obtain rfl := Except.ok.inj h
    have hchecked : isPrivate uid info = true := by simpa using hprivate
    obtain ⟨parent, hparent⟩ : ∃ parent, ancestors.getLast? = some parent := by
      cases ancestors with
      | nil => cases tmp <;> simp [FileSystem.resolve, Option.bind_eq_some_iff] at hresolve
      | cons d ancestors => exact ⟨_, List.getLast?_cons⟩
    rw [List.getLastD_eq_getLast?, hparent, Option.getD_some] at hmkdtemp
    have hroot : fs'.root = fs.root := by
      obtain ⟨node, -, -, -, rfl⟩ := mkdtemp_eq_ok hmkdtemp
      rfl
    have htrusted := checkAncestors_ok hcheck
    refine ⟨ancestors ++ [ino], ?_, by simp⟩
    rw [hroot]
    exact guarded_mkdtemp hresolve hparent
      (fun d hd => htrusted d (List.mem_reverse.mpr hd)) hmkdtemp ⟨info, stat_eq_ok hstat, hchecked⟩

/-- After a launch no other user can change the path to the private directory or what is in it, nor
read what is in it, whatever all users have tried before, and whatever the launching user and root
have done beside the path. -/
theorem launcher_keeps_others_out {platform : String} {argv : List String} {created : ℕ × ℕ × ℕ}
    {launch : Launch} (h : main platform argv uid fs tmp name ino created = .ok launch) :
    ∃ chain, launch.fs.resolve launch.fs.root (tmp ++ [name]) = some chain ∧
      chain.getLast? = some ino ∧
      ∀ attempts : List (User × Op), (∀ a ∈ attempts, (a.1.uid ≠ 0 ∧ a.1.uid ≠ uid) ∨
          a.2.Spares chain (chain.zip (tmp ++ [name]))) →
        (run launch.fs attempts).resolve (run launch.fs attempts).root (tmp ++ [name]) =
            some chain ∧
        ((∀ a ∈ attempts, a.1.uid ≠ 0 ∧ a.1.uid ≠ uid) →
          (run launch.fs attempts).node ino = launch.fs.node ino) ∧
        -- Whatever another user tries there is refused.
        ∀ u : User, u.uid ≠ 0 → u.uid ≠ uid →
          (∀ op : Op, ∀ link ∈ op.changes, link ∈ chain.zip (tmp ++ [name]) ∨ link.1 = ino →
            step u (run launch.fs attempts) op = none) ∧
          (∀ n, step u (run launch.fs attempts) (.read ino n) = none) ∧
          (∀ d ∈ chain, ∀ owner gid mode,
            step u (run launch.fs attempts) (.setAttributes d owner gid mode) = none) ∧
          ∀ op fs', step u (run launch.fs attempts) op = some fs' →
            fs'.node ino = (run launch.fs attempts).node ino := by
  obtain ⟨chain, hguarded, hlast⟩ := guarded_main h
  refine ⟨chain, hguarded.resolve, hlast, fun attempts hattempts => ?_⟩
  have hafter := hguarded.run hattempts
  refine ⟨hafter.resolve, fun hothers => hguarded.private_eq hlast (run_preserves hothers),
    fun u hroot hne => ⟨?_, ?_, ?_, fun op fs' hstep => ?_⟩⟩
  · rintro op ⟨d, n⟩ hop hlink
    refine step_locked ⟨hroot, hne⟩ hop fun fs' hp => ?_
    exact (hafter.preserved hp).locked hlast hlink
  · intro n
    obtain ⟨node', hnode', hchecked'⟩ := hafter.private hlast
    have hnone := (ours_of_isPrivate hchecked').2 u ⟨hroot, hne⟩
    simp only [step, hnode', Option.bind_eq_bind, Option.bind_some, hnone, Bool.false_eq_true,
      or_self, if_false]
    cases node'.entries n <;> rfl
  · intro d hd owner gid mode
    obtain ⟨node', hnode', hours⟩ := hafter.mem hd
    have hnot : u.owns node' = false := User.Other.not_owns ⟨hroot, hne⟩ hours
    simp [step, hnode', hnot]
  · exact hafter.private_eq hlast (step_preserves ⟨hroot, hne⟩ hstep)

/-- `/tmp` of root, sticky and writable for everyone. -/
def sharedTmp : FileSystem where
  root := 0
  node ino :=
    if ino = 0 then some ⟨0, 0, 0o40755, fun n => if n = "tmp" then some 1 else none⟩
    else if ino = 1 then some ⟨0, 0, 0o41777, fun _ => none⟩
    else none

/-- The launching user puts a file of mode 0666 into the directory, and another user tries to steal
the directory. -/
def tmpAttempts : List (User × Op) :=
  [(⟨1000, fun _ => false⟩, .create 2 "kernel.cubin" 3 1000 0o100666),
    (⟨1001, fun _ => true⟩, .rename 1 "gudra-jit-a" 1 "stolen")]

theorem launcher_keeps_others_out_tmp : ∃ launch,
    main "linux" ["--", "nvidia-smi"] 1000 sharedTmp ["tmp"] "gudra-jit-a" 2 (1000, 1000, 0o40700) =
        .ok launch ∧
      (step ⟨1000, fun _ => false⟩ (run launch.fs tmpAttempts) (.read 2 "kernel.cubin")).isSome ∧
      step ⟨1001, fun _ => true⟩ (run launch.fs tmpAttempts) (.read 2 "kernel.cubin") = none := by
  obtain ⟨launch, hlaunch⟩ : ∃ launch, main "linux" ["--", "nvidia-smi"] 1000 sharedTmp ["tmp"]
      "gudra-jit-a" 2 (1000, 1000, 0o40700) = .ok launch := ⟨_, rfl⟩
  have hread : (step ⟨1000, fun _ => false⟩ (run launch.fs tmpAttempts)
      (.read 2 "kernel.cubin")).isSome := by
    obtain rfl := Except.ok.inj hlaunch
    rfl
  obtain ⟨chain, hresolve, -, hafter⟩ := launcher_keeps_others_out hlaunch
  obtain rfl : chain = [0, 1, 2] := by
    obtain rfl := Except.ok.inj hlaunch
    exact (Option.some.inj hresolve).symm
  have hattempts : ∀ a ∈ tmpAttempts, (a.1.uid ≠ 0 ∧ a.1.uid ≠ 1000) ∨
      a.2.Spares [0, 1, 2] [(0, "tmp"), (1, "gudra-jit-a")] := by
    intro a ha
    rcases List.mem_cons.mp ha with rfl | ha
    · right
      refine ⟨fun link hlink => ?_, by simp⟩
      obtain rfl := List.mem_singleton.mp hlink
      simp
    · obtain rfl := List.mem_singleton.mp ha
      exact .inl (by simp)
  exact ⟨launch, hlaunch, hread, ((hafter tmpAttempts hattempts).2.2 _ (by simp) (by simp)).2.1 _⟩

end Launches

end Gudra.PrivateLauncher
