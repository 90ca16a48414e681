import Gudra.ReleaseGate

/-! Which source trees the digest of the release gate identifies. -/
namespace Gudra.ReleaseGate

open Framing

variable {root : List Str} {t t' : Tree} {p : RelPath} {content : Bytes}

/-- The selected files and their contents agree up to line endings. -/
def SameSource (root : List Str) (t t' : Tree) : Prop :=
  ∀ p, Selected root p → (t.read p).map crlfToLf = (t'.read p).map crlfToLf

/-- What stands for a path in the stream. -/
def fileName (p : RelPath) : Bytes := encode p.asPosix

/-- The selected files in their order, the normalised contents cut at the NUL bytes. -/
def records (root : List Str) (t : Tree) : List (RelPath × List Bytes) :=
  (entries root t).map fun e => (e.1, e.2.splitOn 0)

theorem fileName_injective : Function.Injective fileName :=
  encode_injective.comp RelPath.asPosix_injective

theorem zero_notMem_fileName : 0 ∉ fileName p := by
  refine zero_notMem_encode fun h => ?_
  have hmem : '\x00' ∈ terminate '/' p.parts := by
    rw [terminate_eq p.parts_ne]
    exact List.mem_append_left _ h
  obtain ⟨part, hpart, hzero⟩ := List.mem_flatMap.mp hmem
  rcases List.mem_append.mp hzero with hzero | hzero
  · exact (p.part_ok part hpart).2.2.2.2 hzero
  · exact absurd hzero (by decide)

section Streams

variable {s : Bytes}

theorem foldlM_read (l : List RelPath) (digest : Bytes) :
    l.foldlM (fun digest path => do
      return digest ++ (encode path.asPosix ++ [0]) ++ (crlfToLf (← t.read path) ++ [0])) digest =
        some s ↔ (∀ p ∈ l, (t.read p).isSome) ∧ s = digest ++
          (l.filterMap fun p => (t.read p).map fun content => (p, crlfToLf content)).flatMap
            fun e => fileName e.1 ++ [0] ++ (e.2 ++ [0]) := by
  induction l generalizing digest with
  | nil =>
    simp only [List.foldlM_nil, Option.pure_def, Option.some.injEq, List.filterMap_nil,
      List.flatMap_nil, List.append_nil, List.not_mem_nil, false_implies, implies_true, true_and]
    exact eq_comm
  | cons p l ih =>
    rw [List.foldlM_cons]
    cases hread : t.read p with
    | none =>
      simp only [Option.bind_eq_bind, Option.bind_none, reduceCtorEq, List.forall_mem_cons, hread,
        Option.isSome_none, Bool.false_eq_true, false_and]
    | some content =>
      simp only [Option.bind_eq_bind, Option.bind_some, Option.pure_def]
      refine (ih _).trans ?_
      simp only [List.forall_mem_cons, hread, Option.isSome_some, true_and, List.filterMap_cons,
        Option.map_some, List.flatMap_cons, fileName, List.append_assoc]

/-- There is a stream iff all required files are there, and it is their records. -/
theorem sourceStream_eq_some : sourceStream root t = some s ↔
    (∀ p ∈ sourceFiles, (t.read p).isSome) ∧
      s = terminate 0 (flatten fileName (records root t)) := by
  rw [sourceStream, foldlM_read, List.nil_append, records, terminate_flatten]
  refine and_congr_left fun _ => ⟨fun h p hp => ?_, fun h p hp => ?_⟩
  · exact h p ((List.mem_insertionSort _).mpr (mem_paths.mpr (.inl hp)))
  · rcases mem_paths.mp ((List.mem_insertionSort _).mp hp) with hp | ⟨-, hfile⟩
    · exact h p hp
    · obtain ⟨⟨q, content⟩, hmem, rfl⟩ := List.mem_map.mp hfile
      exact Option.isSome_of_mem (Tree.read_eq_some.mpr hmem)

theorem zero_notMem_flatten : ∀ token ∈ flatten fileName (records root t), 0 ∉ token := by
  intro token htoken
  simp only [flatten, records, List.mem_flatMap, List.mem_map] at htoken
  obtain ⟨r, ⟨e, -, rfl⟩, htoken⟩ := htoken
  rcases List.mem_cons.mp htoken with rfl | htoken
  · exact zero_notMem_fileName
  · exact notMem_splitOn _ _ htoken

theorem valid_records (h : ∀ p ∈ sourceFiles, (t.read p).isSome) :
    Valid (Selected root) (· ∈ sourceFiles) (records root t) where
  sorted := List.pairwise_map.mpr sorted_entries
  bodies r hr := by
    obtain ⟨e, -, rfl⟩ := List.mem_map.mp hr
    exact List.splitOn_ne_nil _ _
  allowed r hr := by
    obtain ⟨⟨q, c⟩, he, rfl⟩ := List.mem_map.mp hr
    exact (mem_entries.mp he).1
  required q hq := by
    obtain ⟨c, hread⟩ := Option.isSome_iff_exists.mp (h q hq)
    have he : (q, crlfToLf c) ∈ entries root t :=
      mem_entries.mpr ⟨.inl hq, congrArg (Option.map crlfToLf) hread⟩
    rw [records, List.map_map]
    exact List.mem_map.mpr ⟨_, he, rfl⟩

theorem flatten_eq (h : sourceStream root t = some s) (h' : sourceStream root t' = some s) :
    flatten fileName (records root t) = flatten fileName (records root t') :=
  terminate_injective zero_notMem_flatten zero_notMem_flatten
    ((sourceStream_eq_some.mp h).2.symm.trans (sourceStream_eq_some.mp h').2)

/-- Sorted lists are equal when they have the same members. -/
theorem sorted_ext {l l' : List (RelPath × Bytes)} (h : l.Pairwise fun e e' => e.1 < e'.1)
    (h' : l'.Pairwise fun e e' => e.1 < e'.1) (hmem : ∀ e, e ∈ l ↔ e ∈ l') : l = l' := by
  have hnodup : ∀ l : List (RelPath × Bytes), (l.Pairwise fun e e' => e.1 < e'.1) → l.Nodup :=
    fun l hl => hl.imp fun hlt he => hlt.ne (congrArg Prod.fst he)
  have hperm := (List.perm_ext_iff_of_nodup (hnodup l h) (hnodup l' h')).mpr fun e => hmem e
  exact hperm.eq_of_pairwise (fun e e' _ _ hlt hlt' => absurd hlt hlt'.asymm) h h'

/-- The same source has the same records, and the other way round. -/
theorem sameSource_iff : SameSource root t t' ↔ records root t = records root t' := by
  have hentries : SameSource root t t' ↔ entries root t = entries root t' := by
    constructor
    · intro h
      refine sorted_ext sorted_entries sorted_entries fun ⟨q, c⟩ => ?_
      rw [mem_entries, mem_entries]
      exact and_congr_right fun hq => by rw [h q hq]
    · intro h q hq
      ext c
      have hmem : (q, c) ∈ entries root t ↔ _ := mem_entries
      rw [h, mem_entries] at hmem
      simpa [hq] using hmem.symm
  rw [hentries]
  refine ⟨fun h => by rw [records, h, ← records], fun h => ?_⟩
  refine List.map_injective_iff.mpr ?_ h
  rintro ⟨q, c⟩ ⟨q', c'⟩ he
  rw [Prod.mk.injEq] at he ⊢
  exact ⟨he.1, splitOn_injective he.2⟩

end Streams

section Trees

variable {rs : List (RelPath × List Bytes)}

/-- A tree with given records. -/
def ofRecords (rs : List (RelPath × List Bytes)) (h : rs.Pairwise fun r r' => r.1 < r'.1) : Tree where
  files := rs.map fun r => (r.1, lfToCrlf ([0].intercalate r.2))
  nodup := by
    rw [List.map_map]
    exact List.pairwise_map.mpr (h.imp fun hlt => hlt.ne)

theorem read_ofRecords {h : rs.Pairwise fun r r' => r.1 < r'.1} :
    ((ofRecords rs h).read p).map crlfToLf = some content ↔
      ∃ r ∈ rs, r.1 = p ∧ [0].intercalate r.2 = content := by
  rw [Option.map_eq_some_iff]
  simp only [Tree.read_eq_some, ofRecords, List.mem_map, Prod.mk.injEq]
  constructor
  · rintro ⟨c, ⟨r, hr, rfl, rfl⟩, rfl⟩
    exact ⟨r, hr, rfl, (crlfToLf_lfToCrlf _).symm⟩
  · rintro ⟨r, hr, rfl, rfl⟩
    exact ⟨_, ⟨r, hr, rfl, rfl⟩, crlfToLf_lfToCrlf _⟩

theorem records_ofRecords (hv : Valid (Selected root) (· ∈ sourceFiles) rs)
    (hzero : ∀ token ∈ flatten fileName rs, 0 ∉ token) :
    records root (ofRecords rs hv.sorted) = rs := by
  have hentries : entries root (ofRecords rs hv.sorted) =
      rs.map fun r => (r.1, [0].intercalate r.2) := by
    refine sorted_ext sorted_entries (List.pairwise_map.mpr hv.sorted) fun ⟨q, c⟩ => ?_
    rw [mem_entries, read_ofRecords, List.mem_map]
    constructor
    · rintro ⟨-, r, hr, rfl, rfl⟩
      exact ⟨r, hr, rfl⟩
    · rintro ⟨r, hr, he⟩
      rw [Prod.mk.injEq] at he
      exact ⟨he.1 ▸ hv.allowed r hr, r, hr, he⟩
  rw [records, hentries, List.map_map]
  conv_rhs => rw [← List.map_id rs]
  refine List.map_congr_left fun r hr => Prod.ext rfl ?_
  refine List.splitOn_intercalate 0 (fun token htoken => hzero token ?_) (hv.bodies r hr)
  exact List.mem_flatMap.mpr ⟨r, hr, List.mem_cons_of_mem _ htoken⟩

theorem complete_ofRecords (hv : Valid (Selected root) (· ∈ sourceFiles) rs) :
    ∀ p ∈ sourceFiles, ((ofRecords rs hv.sorted).read p).isSome := by
  intro p hp
  obtain ⟨r, hr, rfl⟩ := List.mem_map.mp (hv.required p hp)
  have hread := (read_ofRecords (h := hv.sorted)).mpr ⟨r, hr, rfl, rfl⟩
  obtain ⟨c, hc, -⟩ := Option.map_eq_some_iff.mp hread
  exact Option.isSome_of_mem hc

end Trees

/-- No selected path can be dropped, added or moved without a trace: every selected file but the
first is one of the required ones, and no NUL-delimited piece of a content is a selectable path in a
place where a file could start. -/
def Unambiguous (root : List Str) (t : Tree) : Prop :=
  Framing.Unambiguous fileName (Selected root) (· ∈ sourceFiles) (records root t)

theorem identifies_iff (ht : (sourceStream root t).isSome) :
    (∀ t', sourceStream root t' = sourceStream root t → SameSource root t t') ↔
      Unambiguous root t := by
  obtain ⟨s, hs⟩ := Option.isSome_iff_exists.mp ht
  have hcomplete := (sourceStream_eq_some.mp hs).1
  have hvalid : Valid (Selected root) (· ∈ sourceFiles) (records root t) :=
    valid_records hcomplete
  rw [Unambiguous, ← unique_iff hvalid fileName_injective]
  constructor
  · intro h rs hv heq
    have hrecords : records root (ofRecords rs hv.sorted) = rs :=
      records_ofRecords hv fun token htoken => zero_notMem_flatten token (heq ▸ htoken)
    have hstream : sourceStream root (ofRecords rs hv.sorted) = some s := by
      refine sourceStream_eq_some.mpr ⟨complete_ofRecords hv, ?_⟩
      rw [hrecords, heq]
      exact (sourceStream_eq_some.mp hs).2
    have hsource := h _ (hstream.trans hs.symm)
    exact hrecords.symm.trans (sameSource_iff.mp hsource).symm
  · intro h t' hsame
    have hs' : sourceStream root t' = some s := hsame.trans hs
    have hrecords := h _ (valid_records (sourceStream_eq_some.mp hs').1) (flatten_eq hs' hs)
    exact sameSource_iff.mpr hrecords.symm

/-- No selected content has a NUL byte. -/
def NulFree (root : List Str) (t : Tree) : Prop :=
  ∀ p content, Selected root p → t.read p = some content → 0 ∉ content

theorem NulFree.singletons (h : NulFree root t) : ∀ r ∈ records root t, r.2.length = 1 := by
  intro r hr
  obtain ⟨⟨q, c⟩, he, rfl⟩ := List.mem_map.mp hr
  obtain ⟨hq, hmap⟩ := mem_entries.mp he
  obtain ⟨content, hread, rfl⟩ := Option.map_eq_some_iff.mp hmap
  have hnot : 0 ∉ crlfToLf content := fun hzero => h q content hq hread (mem_of_mem_crlfToLf hzero)
  simp only [List.splitOn_eq_singleton hnot, List.length_singleton]

/-- Among trees without NUL bytes a stream is that of one source. -/
theorem sameSource_of_nulFree (ht : (sourceStream root t).isSome)
    (hsame : sourceStream root t' = sourceStream root t) (hfree : NulFree root t)
    (hfree' : NulFree root t') : SameSource root t t' := by
  obtain ⟨s, hs⟩ := Option.isSome_iff_exists.mp ht
  have hs' : sourceStream root t' = some s := hsame.trans hs
  exact sameSource_iff.mpr (eq_of_singletons fileName_injective hfree.singletons hfree'.singletons
    (flatten_eq hs hs'))

/-- The gate decides by the stream alone. -/
theorem main_congr {sha256 : Bytes → Str} {gate : Gate}
    (h : sourceStream root t' = sourceStream root t) :
    main sha256 root gate t' = main sha256 root gate t := by
  rw [main, main, h]

/-- The gate passes only what has the stream of the recorded digest, unless the hash of the two
collides. -/
theorem main_passes {sha256 : Bytes → Str} {gate : Gate} {line : String}
    (hgate : gate.sourceSha256 = (sourceStream root t).map sha256)
    (hpass : main sha256 root gate t' = some (.ok (0, line)))
    (hcollision : ∀ s s', sourceStream root t = some s → sourceStream root t' = some s' →
      sha256 s = sha256 s' → s = s') :
    (sourceStream root t).isSome ∧ sourceStream root t' = sourceStream root t := by
  cases hstream : sourceStream root t' with
  | none =>
    have hmain : main sha256 root gate t' = none := by
      rw [main, hstream]
      rfl
    exact nomatch hmain.symm.trans hpass
  | some s' =>
    by_cases heq : gate.sourceSha256 = some (sha256 s')
    · rw [hgate, Option.map_eq_some_iff] at heq
      obtain ⟨s, hs, hsha⟩ := heq
      rw [hs, hcollision s s' hs hstream hsha]
      exact ⟨rfl, rfl⟩
    · have hmain : main sha256 root gate t' = some (.error
          "FAIL: source/configuration changed since the recorded release review.") := by
        rw [main, hstream]
        exact congrArg some (if_pos heq)
      exact nomatch hmain.symm.trans hpass

/-- The stream of the digest identifies a source tree among all others up to line endings iff the
tree is unambiguous; among trees without NUL bytes it always does. In these cases the gate passes no
other source than the recorded one, and for every tree that is not unambiguous there is another
source that the gate treats alike. -/
theorem source_digest_identifies (root : List Str) :
    (∀ t, (sourceStream root t).isSome →
      ((∀ t', sourceStream root t' = sourceStream root t → SameSource root t t') ↔
        Unambiguous root t)) ∧
    (∀ sha256 gate line t t', gate.sourceSha256 = (sourceStream root t).map sha256 →
      main sha256 root gate t' = some (.ok (0, line)) →
      (∀ s s', sourceStream root t = some s → sourceStream root t' = some s' →
        sha256 s = sha256 s' → s = s') →
      (Unambiguous root t ∨ NulFree root t ∧ NulFree root t') → SameSource root t t') ∧
    (∀ t, (sourceStream root t).isSome → ¬ Unambiguous root t →
      ∃ t', ¬ SameSource root t t' ∧
        ∀ sha256 gate, main sha256 root gate t' = main sha256 root gate t) ∧
    ∀ t t', (sourceStream root t).isSome → sourceStream root t' = sourceStream root t →
      NulFree root t → NulFree root t' → SameSource root t t' := by
  refine ⟨fun t ht => identifies_iff ht, ?_, ?_, fun t t' => sameSource_of_nulFree⟩
  · intro sha256 gate line t t' hgate hpass hcollision h
    obtain ⟨hsome, hsame⟩ := main_passes hgate hpass hcollision
    rcases h with hu | ⟨hfree, hfree'⟩
    · exact (identifies_iff hsome).mpr hu t' hsame
    · exact sameSource_of_nulFree hsome hsame hfree hfree'
  · intro t ht hu
    rw [← identifies_iff ht, not_forall] at hu
    obtain ⟨t', ht'⟩ := hu
    obtain ⟨hsame, hne⟩ := Classical.not_imp.mp ht'
    exact ⟨t', hne, fun _ _ => main_congr hsame⟩

/-- The required files alone, one line feed each. -/
def bareTree : Tree where
  files := sourceFiles.map (·, [10])
  nodup := by decide +kernel

/-- No other source has the stream of the required files alone. -/
theorem source_digest_identifies_bare : (sourceStream [] bareTree).isSome ∧
    ∀ t', sourceStream [] t' = sourceStream [] bareTree → SameSource [] bareTree t' := by
  have hsome : (sourceStream [] bareTree).isSome := by decide +kernel
  have hrequired : ∀ r ∈ records [] bareTree, r.1 ∈ sourceFiles := by decide +kernel
  have hone : ∀ r ∈ records [] bareTree, r.2.length = 1 := by decide +kernel
  have hu : Unambiguous [] bareTree := unambiguous_of_singletons hrequired hone
  exact ⟨hsome, ((source_digest_identifies []).1 bareTree hsome).mpr hu⟩

/-- Two files of one directory. -/
def libRs : RelPath := ⟨["src".toList, "lib.rs".toList], by decide, by decide⟩

def mainRs : RelPath := ⟨["src".toList, "main.rs".toList], by decide, by decide⟩

/-- The required files, one line feed each, and two more. -/
def splitTree : Tree where
  files := sourceFiles.map (·, [10]) ++ [(libRs, encode "a".toList), (mainRs, encode "b".toList)]
  nodup := by decide +kernel

/-- The second file has become a part of the first. -/
def mergedTree : Tree where
  files := sourceFiles.map (·, [10]) ++
    [(libRs, encode "a".toList ++ 0 :: encode "src/main.rs".toList ++ 0 :: encode "b".toList)]
  nodup := by decide +kernel

/-- Two different sources with one stream. -/
theorem merged_stream : (sourceStream [] splitTree).isSome ∧
    sourceStream [] mergedTree = sourceStream [] splitTree ∧
    ¬ SameSource [] splitTree mergedTree := by
  refine ⟨by decide +kernel, by decide +kernel, fun h => ?_⟩
  have hselected : Selected [] mainRs := .inr ⟨by decide +kernel, by decide +kernel⟩
  have hread := h mainRs hselected
  revert hread
  decide +kernel

end Gudra.ReleaseGate
