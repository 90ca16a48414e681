import Gudra.Lib.Framing
import Mathlib.Data.List.Lex
import Mathlib.Data.List.Sort
import Mathlib.Data.Char

/-! The release gate (`check-release-gate.py`): the bytes that identify a source tree, and the check
against the recorded review. -/
namespace Gudra.ReleaseGate

open Framing

abbrev Bytes := List UInt8

/-- A string, by its code points. -/
abbrev Str := List Char

/-- `.encode()` -/
def encode (s : Str) : Bytes := s.flatMap String.utf8EncodeChar

/-- `.replace(b"\r\n", b"\n")` -/
def crlfToLf : Bytes → Bytes
  | 13 :: 10 :: rest => 10 :: crlfToLf rest
  | byte :: rest => byte :: crlfToLf rest
  | [] => []

/-- What a directory entry may be called. -/
def IsName (part : Str) : Prop :=
  part ≠ [] ∧ part ≠ ['.'] ∧ part ≠ ['.', '.'] ∧ '/' ∉ part ∧ '\x00' ∉ part

instance : DecidablePred IsName := fun _ => inferInstanceAs (Decidable (_ ∧ _))

/-- A relative path in the normal form of `pathlib`, as `rglob` finds it below `ROOT`. -/
structure RelPath where
  parts : List Str
  parts_ne : parts ≠ []
  part_ok : ∀ part ∈ parts, IsName part

namespace RelPath

def asPosix (p : RelPath) : Str := ['/'].intercalate p.parts

def name (p : RelPath) : Str := p.parts.getLast p.parts_ne

/-- `name.rfind(char)` -/
def rfind (s : Str) (char : Char) : Option ℕ :=
  (s.reverse.findIdx? (· == char)).map fun n => s.length - 1 - n

def suffix (p : RelPath) : Str :=
  match rfind p.name '.' with
  | some i => if 0 < i ∧ i < p.name.length - 1 then p.name.drop i else []
  | none => []

theorem asPosix_injective : Function.Injective asPosix := by
  intro p q h
  have hsplit := congrArg (List.splitOn '/') h
  simp only [asPosix] at hsplit
  rw [List.splitOn_intercalate _ (fun l hl => (p.part_ok l hl).2.2.2.1) p.parts_ne,
    List.splitOn_intercalate _ (fun l hl => (q.part_ok l hl).2.2.2.1) q.parts_ne] at hsplit
  cases p
  cases q
  congr

/-- Paths are sorted by `as_posix()`. -/
instance : LinearOrder RelPath := LinearOrder.lift' asPosix asPosix_injective

/-- `ROOT / name` for a name without a slash. -/
def ofName (name : Str) (h : IsName name) : RelPath where
  parts := [name]
  parts_ne := List.cons_ne_nil _ _
  part_ok := by simpa using h

end RelPath

/-- The files outside the directories. -/
def sourceFiles : List RelPath :=
  [.ofName "Cargo.toml".toList (by decide), .ofName "Cargo.lock".toList (by decide),
    .ofName "rust-toolchain.toml".toList (by decide), .ofName "deny.toml".toList (by decide),
    .ofName "LICENSE".toList (by decide), .ofName "SECURITY.md".toList (by decide),
    .ofName ".gitignore".toList (by decide)]

def directories : List Str :=
  ["src".toList, "tests".toList, "scripts".toList, ".github".toList, "vendor".toList]

/-- A source tree: the contents of its files. -/
structure Tree where
  files : List (RelPath × Bytes)
  nodup : (files.map Prod.fst).Nodup

namespace Tree

/-- `read_bytes()`; `none` is a missing file. -/
def read (t : Tree) (p : RelPath) : Option Bytes := t.files.lookup p

/-- `(ROOT / directory).rglob("*")` -/
def rglob (t : Tree) (directory : Str) : List RelPath :=
  (t.files.map Prod.fst).filter fun p => 1 < p.parts.length ∧ p.parts.head? = some directory

end Tree

/-- What a directory contributes; `root` are the parts of `ROOT`. -/
def keeps (root : List Str) (p : RelPath) : Bool :=
  decide ("__pycache__".toList ∉ root ++ p.parts) && decide (p.suffix ≠ ".pyc".toList)

def paths (root : List Str) (t : Tree) : List RelPath :=
  sourceFiles ++ directories.flatMap fun directory => (t.rglob directory).filter (keeps root)

/-- The bytes that `source_digest` hashes; `none` when a required file is missing. -/
def sourceStream (root : List Str) (t : Tree) : Option Bytes :=
  ((paths root t).insertionSort (·.asPosix ≤ ·.asPosix)).foldlM (fun digest path => do
    return digest ++ (encode path.asPosix ++ [0]) ++ (crlfToLf (← t.read path) ++ [0])) []

/-- `REQUIRED` -/
def requiredChecks : List Str :=
  ["local-cpu-and-policy".toList, "SEC-001-private-jit-boundary".toList,
    "SEC-004-failed-drain-retention".toList, "final-revision-gpu".toList,
    "linux-and-hosted-ci".toList, "release-reporting-provenance-ownership".toList]

structure Check where
  id : Option Str
  status : Option Str
deriving DecidableEq

/-- `docs/security/release-gate.json` -/
structure Gate where
  sourceSha256 : Option Str
  requiredChecks : List Check
  decision : Option Str

/-- The checks whose status is not `pass`. -/
def Gate.pending (gate : Gate) : List Str :=
  (gate.requiredChecks.filter fun item => item.status ≠ some "pass".toList).filterMap Check.id

/-- The exit code with the printed line, or the text of `SystemExit`; `none` is a file that cannot be
read. -/
def main (sha256 : Bytes → Str) (root : List Str) (gate : Gate) (t : Tree) :
    Option (Except String (ℕ × String)) := do
  let sourceDigest := sha256 (← sourceStream root t)
  let ids := gate.requiredChecks.map Check.id
  return if gate.sourceSha256 ≠ some sourceDigest then
    .error "FAIL: source/configuration changed since the recorded release review."
  else if gate.requiredChecks.length ≠ requiredChecks.length ∨
      ¬ (ids ⊆ requiredChecks.map some ∧ requiredChecks.map some ⊆ ids) then
    .error "FAIL: missing, duplicate, or unexpected required checks."
  else if gate.decision ≠ some "pass".toList ∨ gate.requiredChecks = [] ∨ gate.pending ≠ [] then
    .ok (1, "FAIL: release is not approved. Open checks: " ++
      ", ".intercalate (gate.pending.map String.ofList))
  else
    .ok (0, "PASS: recorded required checks pass for this source digest; " ++
      "verify external release authorization.")

section Encoding

theorem encode_injective : Function.Injective encode := by
  intro s s' h
  have hbytes : (String.ofList s).toByteArray = (String.ofList s').toByteArray :=
    congrArg List.toByteArray h
  exact String.ofList_injective (String.toByteArray_inj.mp hbytes)

theorem zero_ne_ofNat {n : ℕ} (hpos : 0 < n) (h : n < 256) : (0 : UInt8) ≠ UInt8.ofNat n := by
  intro he
  have hnat := congrArg UInt8.toNat he
  rw [UInt8.toNat_ofNat', Nat.mod_eq_of_lt h] at hnat
  exact hpos.ne hnat

theorem zero_notMem_encode {s : Str} (h : '\x00' ∉ s) : 0 ∉ encode s := by
  rw [encode, List.mem_flatMap]
  rintro ⟨c, hc, hzero⟩
  have hne : c.val.toNat ≠ 0 := by
    intro hval
    refine h ?_
    have : c = '\x00' := Char.ext (UInt32.toNat_inj.mp hval)
    exact this ▸ hc
  simp only [String.utf8EncodeChar] at hzero
  split_ifs at hzero
  all_goals simp only [List.mem_cons, List.not_mem_nil, or_false] at hzero
  · exact zero_ne_ofNat (by omega) (by omega) hzero
  · rcases hzero with h | h
    all_goals exact zero_ne_ofNat (by omega) (by omega) h
  · rcases hzero with h | h | h
    all_goals exact zero_ne_ofNat (by omega) (by omega) h
  · rcases hzero with h | h | h | h
    all_goals exact zero_ne_ofNat (by omega) (by omega) h

theorem mem_of_mem_crlfToLf {byte : UInt8} {content : Bytes} (h : byte ∈ crlfToLf content) :
    byte ∈ content := by
  fun_induction crlfToLf content with
  | case1 rest ih =>
    rcases List.mem_cons.mp h with rfl | h
    · simp
    · exact List.mem_cons_of_mem _ (List.mem_cons_of_mem _ (ih h))
  | case2 b rest _ ih =>
    rcases List.mem_cons.mp h with rfl | h
    · exact List.mem_cons_self
    · exact List.mem_cons_of_mem _ (ih h)
  | case3 => exact h

/-- Contents that are normalised to a given one. -/
def lfToCrlf (content : Bytes) : Bytes :=
  content.flatMap fun byte => if byte = 10 then [13, 10] else [byte]

theorem crlfToLf_lfToCrlf (content : Bytes) : crlfToLf (lfToCrlf content) = content := by
  induction content with
  | nil => rfl
  | cons byte rest ih =>
    by_cases hb : byte = 10
    · subst hb
      change 10 :: crlfToLf (lfToCrlf rest) = _
      rw [ih]
    · have hcons : lfToCrlf (byte :: rest) = byte :: lfToCrlf rest := by
        simp [lfToCrlf, hb]
      -- What follows never starts with a line feed.
      have hhead : ∀ tail, lfToCrlf rest ≠ 10 :: tail := by
        intro tail
        cases rest with
        | nil => simp [lfToCrlf]
        | cons b rest =>
          by_cases h10 : b = 10 <;> simp [lfToCrlf, h10]
      rw [hcons, crlfToLf.eq_2 _ _ fun tail _ h => hhead tail h, ih]

end Encoding

section Reading

variable {root : List Str} {t t' : Tree} {p : RelPath} {content : Bytes}

theorem lookup_eq_some {files : List (RelPath × Bytes)} (h : (files.map Prod.fst).Nodup) :
    files.lookup p = some content ↔ (p, content) ∈ files := by
  induction files with
  | nil => simp
  | cons file files ih =>
    obtain ⟨q, c⟩ := file
    rw [List.map_cons, List.nodup_cons] at h
    rw [List.lookup_cons, List.mem_cons, Prod.mk.injEq]
    by_cases hq : p = q
    · subst hq
      have hnot : (p, content) ∉ files := fun hmem =>
        h.1 (List.mem_map.mpr ⟨(p, content), hmem, rfl⟩)
      simp [hnot, eq_comm]
    · simp [beq_false_of_ne hq, hq, ih h.2]

theorem Tree.read_eq_some : t.read p = some content ↔ (p, content) ∈ t.files :=
  lookup_eq_some t.nodup

/-- The paths that can be selected. -/
def Selected (root : List Str) (p : RelPath) : Prop :=
  p ∈ sourceFiles ∨
    (1 < p.parts.length ∧ p.parts.head? ∈ directories.map some) ∧ keeps root p = true

theorem mem_paths : p ∈ paths root t ↔
    p ∈ sourceFiles ∨ Selected root p ∧ p ∈ t.files.map Prod.fst := by
  simp only [paths, Tree.rglob, List.mem_append, List.mem_flatMap, List.mem_filter,
    decide_eq_true_eq, Selected, List.mem_map]
  constructor
  · rintro (h | ⟨d, hd, ⟨hfile, hlen, hhead⟩, hkeeps⟩)
    · exact .inl h
    · exact .inr ⟨.inr ⟨⟨hlen, d, hd, hhead.symm⟩, hkeeps⟩, hfile⟩
  · rintro (h | ⟨h | ⟨⟨hlen, d, hd, hhead⟩, hkeeps⟩, hfile⟩)
    · exact .inl h
    · exact .inl h
    · exact .inr ⟨d, hd, ⟨hfile, hlen, hhead.symm⟩, hkeeps⟩

theorem nodup_paths : (paths root t).Nodup := by
  refine List.nodup_append.mpr ⟨by decide, List.nodup_flatMap.mpr ⟨?_, ?_⟩, ?_⟩
  · exact fun directory _ => (t.nodup.filter _).filter _
  · refine List.Nodup.pairwise_of_forall_ne (by decide) fun d _ d' _ hne => ?_
    intro p hp hp'
    simp only [Tree.rglob, List.mem_filter, decide_eq_true_eq] at hp hp'
    exact hne (Option.some.inj (hp.1.2.2.symm.trans hp'.1.2.2))
  · rintro p hp q hq rfl
    obtain ⟨d, -, hq⟩ := List.mem_flatMap.mp hq
    simp only [Tree.rglob, List.mem_filter, decide_eq_true_eq] at hq
    have hlen : ∀ p ∈ sourceFiles, p.parts.length = 1 := by decide
    have hone := hlen p hp
    omega

/-- The selected files with their normalised contents, in the order of the digest. -/
def entries (root : List Str) (t : Tree) : List (RelPath × Bytes) :=
  ((paths root t).insertionSort (·.asPosix ≤ ·.asPosix)).filterMap fun p =>
    (t.read p).map fun content => (p, crlfToLf content)

theorem sorted_entries : (entries root t).Pairwise fun e e' => e.1 < e'.1 := by
  have hsorted : ((paths root t).insertionSort (·.asPosix ≤ ·.asPosix)).Pairwise (· < ·) := by
    have hle : ((paths root t).insertionSort (· ≤ ·)).Pairwise (· ≤ ·) :=
      List.pairwise_insertionSort _ _
    have hnodup : ((paths root t).insertionSort (· ≤ ·)).Nodup :=
      (List.perm_insertionSort _ _).nodup_iff.mpr nodup_paths
    exact (hle.and hnodup).imp fun h => lt_of_le_of_ne h.1 h.2
  refine hsorted.filterMap _ fun p q hlt e he e' he' => ?_
  obtain ⟨c, -, rfl⟩ := Option.map_eq_some_iff.mp he
  obtain ⟨c', -, rfl⟩ := Option.map_eq_some_iff.mp he'
  exact hlt

theorem mem_entries : (p, content) ∈ entries root t ↔
    Selected root p ∧ (t.read p).map crlfToLf = some content := by
  simp only [entries, List.mem_filterMap, List.mem_insertionSort, Option.map_eq_some_iff,
    Prod.mk.injEq]
  constructor
  · rintro ⟨q, hq, c, hread, rfl, rfl⟩
    exact ⟨(mem_paths.mp hq).elim .inl And.left, c, hread, rfl⟩
  · rintro ⟨hp, c, hread, rfl⟩
    have hfile : p ∈ t.files.map Prod.fst := List.mem_map_of_mem (Tree.read_eq_some.mp hread)
    exact ⟨p, mem_paths.mpr (.inr ⟨hp, hfile⟩), c, hread, rfl, rfl⟩

end Reading

end Gudra.ReleaseGate
