import Cvise.ClangIncludeGraph
import Mathlib.Data.List.Dedup
import Mathlib.Data.List.Induction

namespace Cvise
set_option autoImplicit true

/-- An inclusion: the file and the range where it stands, if that is in the test case, and the file
that is included. -/
structure Inclusion where
  site : Option (Bytes × Int × Int)
  file : Bytes
deriving DecidableEq

def pathWord (path : RelPath) : Bytes := encode (strOfPath path)

/-- The inclusion that a hint stands for, with the words of the vocabulary. -/
def GraphHint.inclusion (vocab : List Bytes) (hint : GraphHint) : Option Inclusion :=
  match hint.patches, hint.extra.bind (vocab[·]?) with
  | [], some file => some ⟨none, file⟩
  | [⟨some left, some right, path⟩], some file =>
    (path.bind (vocab[·]?)).map fun site => ⟨some (site, left, right), file⟩
  | _, _ => none

def GraphBundle.inclusions (bundle : GraphBundle) : List Inclusion :=
  bundle.hints.filterMap (GraphHint.inclusion bundle.vocabulary)

/-- A hint as its readers see it: its type and its inclusion. -/
def GraphBundle.decoded (bundle : GraphBundle) (hint : GraphHint) : Option (Bytes × Inclusion) :=
  match hint.type.bind (bundle.vocabulary[·]?), hint.inclusion bundle.vocabulary with
  | some type, some x => some (type, x)
  | _, _ => none

namespace GraphEnv

/-- The inclusion that a quadruple of the tool tells of, if it leads into the test case. -/
def inclusionOf (env : GraphEnv) (fromPath : Str) (locBegin locEnd : Int) (toPath : Str) :
    Except PyErr (Option Inclusion) := do
  if fromPath = [] ∨ toPath = [] then return none
  match ← env.locate (pathOfStr toPath) with
  | none => return none
  | some file =>
    let site ← env.locate (pathOfStr fromPath)
    return some ⟨site.map fun path => (pathWord path, locBegin, locEnd), pathWord file⟩

/-- The inclusions that the tokens of an output tell of. -/
def readInclusions (env : GraphEnv) : List Bytes → Except PyErr (List Inclusion)
  | fromPath :: locBegin :: locEnd :: toPath :: toks => do
    let fromPath ← decodeToken fromPath
    let locBegin ← env.int (← decodeToken locBegin)
    let locEnd ← env.int (← decodeToken locEnd)
    let toPath ← decodeToken toPath
    let found ← env.inclusionOf fromPath locBegin locEnd toPath
    return found.toList ++ (← env.readInclusions toks)
  | toks => do
    env.readTruncated toks
    return []

def commandInclusions (env : GraphEnv) (toolPath : Str) (cmd : List Str) :
    Except PyErr (List Inclusion) := do
  let stdout ← env.checkOutput (toolPath :: cmd)
  env.readInclusions (splitByNullChar stdout)

/-- The tool and all commands of the makefiles. -/
def toolCommands (env : GraphEnv) (dependeeHints : List HintBundle) :
    Except PyErr (Str × List (List Str)) := do
  let makefiles ← env.getMakefilesFromHints dependeeHints
  let allCommands ← env.getAllMakefileCommands makefiles
  match env.clangIncludeGraph with
  | none => throw .assertionError
  | some toolPath =>
    if toolPath = [] then throw .assertionError
    return (toolPath, allCommands)

/-- The inclusions that the tool tells of for the commands with a remainder modulo a number. -/
def chunkInclusions (env : GraphEnv) (modulo n : Nat) (dependeeHints : List HintBundle) :
    Except PyErr (List Inclusion) := do
  let (toolPath, allCommands) ← env.toolCommands dependeeHints
  let found ← (getKthModuloN allCommands modulo n).mapM (env.commandInclusions toolPath)
  return found.flatten

end GraphEnv

variable {env : GraphEnv} {chunk : GraphChunk} {vocab vocab' : List Bytes} {hint : GraphHint}
  {x : Inclusion} {xs : List Inclusion} {bundle : GraphBundle}

theorem getElem?_grown {i : Nat} {s : Bytes} (h : vocab <+: vocab') (hi : vocab[i]? = some s) :
    vocab'[i]? = some s := by
  obtain ⟨added, rfl⟩ := h
  rw [List.getElem?_append_left (List.getElem?_eq_some_iff.1 hi).1, hi]

theorem bind_getElem?_grown {i : Option Nat} (h : vocab <+: vocab')
    (hi : i.bind (vocab[·]?) = some s) : i.bind (vocab'[·]?) = some s := by
  obtain ⟨i, rfl, hi⟩ := Option.bind_eq_some_iff.1 hi
  exact getElem?_grown h hi

theorem GraphHint.inclusion_mono (h : vocab <+: vocab') (hx : hint.inclusion vocab = some x) :
    hint.inclusion vocab' = some x := by
  unfold GraphHint.inclusion at hx
  split at hx
  · rename_i hpatches hextra
    rw [GraphHint.inclusion, hpatches, bind_getElem?_grown h hextra]
    exact hx
  · rename_i hpatches hextra
    obtain ⟨site, hsite, rfl⟩ := Option.map_eq_some_iff.1 hx
    rw [GraphHint.inclusion, hpatches, bind_getElem?_grown h hextra]
    simp only [bind_getElem?_grown h hsite, Option.map_some]
  · cases hx

/-- What a multiplex pass keeps: the paths are at their places in the vocabulary, and the hints are
the inclusions read so far. -/
structure GraphChunk.Lists (chunk : GraphChunk) (xs : List Inclusion) : Prop where
  paths : ∀ path i, getKey chunk.pathToVocab path = some i →
    chunk.vocab[i]? = some (pathWord path)
  told : ∀ hint ∈ chunk.hints, ∃ x ∈ xs, hint.inclusion chunk.vocab = some x
  listed : ∀ x ∈ xs, ∃ hint ∈ chunk.hints, hint.inclusion chunk.vocab = some x

/-- What `_get_vocab_id` gives for a located path: its place in the vocabulary, which grows. -/
def VocabIdOf (chunk : GraphChunk) (xs : List Inclusion) (r : Option Nat × GraphChunk)
    (path : Option RelPath) : Prop :=
  r.2.Lists xs ∧ chunk.vocab <+: r.2.vocab ∧
    Option.Rel (fun i path => r.2.vocab[i]? = some (pathWord path)) r.1 path

theorem getVocabId_located (h : chunk.Lists xs) (path : RelPath) :
    SameOutcome (VocabIdOf chunk xs) (env.getVocabId path chunk) (env.locate path) := by
  have hbind : env.locate path = env.locate path >>= pure := (bind_pure _).symm
  rw [hbind]
  apply SameOutcome.bind_same
  intro located _
  cases located with
  | none => exact .ok ⟨h, List.prefix_rfl, .none⟩
  | some relPath =>
    cases hkey : getKey chunk.pathToVocab relPath with
    | some i =>
      simp only [hkey]
      exact .ok ⟨h, List.prefix_rfl, .some (h.paths relPath i hkey)⟩
    | none =>
      simp only [hkey]
      have hgrows : chunk.vocab <+: chunk.vocab ++ [pathWord relPath] := List.prefix_append _ _
      have hlast : (chunk.vocab ++ [pathWord relPath])[chunk.vocab.length]? =
          some (pathWord relPath) := List.getElem?_concat_length
      refine .ok ⟨⟨?_, ?_, ?_⟩, hgrows, .some hlast⟩
      · intro path' i hi
        by_cases hpath : path' = relPath
        · subst hpath
          rw [getKey_setKey_self, Option.some.injEq] at hi
          subst hi
          exact hlast
        · rw [getKey_setKey_ne hpath] at hi
          exact getElem?_grown hgrows (h.paths path' i hi)
      · intro hint hmem
        obtain ⟨x, hx, hincl⟩ := h.told hint hmem
        exact ⟨x, hx, hint.inclusion_mono hgrows hincl⟩
      · intro x hx
        obtain ⟨hint, hmem, hincl⟩ := h.listed x hx
        exact ⟨hint, hmem, hint.inclusion_mono hgrows hincl⟩

theorem GraphChunk.Lists.insert (h : chunk.Lists xs) (hx : hint.inclusion chunk.vocab = some x) :
    ({ chunk with hints := chunk.hints.insert hint } : GraphChunk).Lists (xs ++ [x]) := by
  refine ⟨h.paths, ?_, ?_⟩
  · intro hint' hmem
    rcases List.mem_insert_iff.1 hmem with rfl | hmem
    · exact ⟨x, List.mem_append_right xs (List.mem_singleton_self x), hx⟩
    · obtain ⟨x', hx', hincl⟩ := h.told hint' hmem
      exact ⟨x', List.mem_append_left _ hx', hincl⟩
  · intro x' hx'
    rcases List.mem_append.1 hx' with hx' | hx'
    · obtain ⟨hint', hmem, hincl⟩ := h.listed x' hx'
      exact ⟨hint', List.mem_insert_of_mem hmem, hincl⟩
    · obtain rfl := List.mem_singleton.1 hx'
      exact ⟨hint, List.mem_insert_self, hx⟩

theorem addInclusion_lists (h : chunk.Lists xs) (fromPath : Str) (locBegin locEnd : Int)
    (toPath : Str) : SameOutcome (fun c found => c.Lists (xs ++ Option.toList found))
      (env.addInclusion chunk fromPath locBegin locEnd toPath)
      (env.inclusionOf fromPath locBegin locEnd toPath) := by
  have hnone : chunk.Lists (xs ++ (none : Option Inclusion).toList) := by
    rw [Option.toList_none, List.append_nil]
    exact h
  rw [GraphEnv.addInclusion, GraphEnv.inclusionOf]
  split
  · exact .ok hnone
  · apply (getVocabId_located h (pathOfStr toPath)).bind
    intro r file hr
    obtain ⟨toNode, chunk₁⟩ := r
    obtain ⟨hlists, hgrows, hto⟩ := hr
    cases hto with
    | none =>
      refine .ok ?_
      rw [Option.toList_none, List.append_nil]
      exact hlists
    | some hto =>
      apply (getVocabId_located hlists (pathOfStr fromPath)).bind
      intro r site hr
      obtain ⟨fromNode, chunk₂⟩ := r
      obtain ⟨hlists', hgrows', hfrom⟩ := hr
      have hto' := getElem?_grown hgrows' hto
      cases hfrom with
      | none =>
        refine .ok (hlists'.insert ?_)
        simp only [GraphHint.inclusion, Option.bind_some, hto', Option.map_none]
      | some hfrom =>
        refine .ok (hlists'.insert ?_)
        simp only [GraphHint.inclusion, Option.bind_some, hto', hfrom, Option.map_some]

theorem readQuadruples_lists (toks : List Bytes) : ∀ {chunk : GraphChunk} {xs : List Inclusion},
    chunk.Lists xs → SameOutcome (fun c found => c.Lists (xs ++ found))
      (env.readQuadruples chunk toks) (env.readInclusions toks) := by
  induction toks using GraphEnv.readInclusions.induct with
  | case1 fromPath locBegin locEnd toPath toks ih =>
    intro chunk xs h
    rw [GraphEnv.readQuadruples, GraphEnv.readInclusions]
    apply SameOutcome.bind_same
    intro fromPath _
    apply SameOutcome.bind_same
    intro text _
    apply SameOutcome.bind_same
    intro locBegin _
    apply SameOutcome.bind_same
    intro text _
    apply SameOutcome.bind_same
    intro locEnd _
    apply SameOutcome.bind_same
    intro toPath _
    apply (addInclusion_lists h fromPath locBegin locEnd toPath).bind
    intro chunk' found h'
    have hrest := ih h'
    rw [← bind_pure (env.readQuadruples chunk' toks)]
    apply hrest.bind
    intro c found' hc
    refine .ok ?_
    rw [← List.append_assoc]
    exact hc
  | case2 toks hshort =>
    intro chunk xs h
    rw [GraphEnv.readQuadruples.eq_2 _ _ _ hshort, GraphEnv.readInclusions.eq_2 _ _ hshort]
    apply SameOutcome.bind_same
    intro _ _
    refine .ok ?_
    rw [List.append_nil]
    exact h

theorem runCommand_lists (h : chunk.Lists xs) (toolPath : Str) (cmd : List Str) :
    SameOutcome (fun c found => c.Lists (xs ++ found)) (env.runCommand toolPath chunk cmd)
      (env.commandInclusions toolPath cmd) := by
  apply SameOutcome.bind_same
  intro stdout _
  exact readQuadruples_lists (splitByNullChar stdout) h

theorem runCommands_lists (toolPath : Str) (cmds : List (List Str)) :
    ∀ {chunk : GraphChunk} {xs : List Inclusion}, chunk.Lists xs →
      SameOutcome (fun c found => c.Lists (xs ++ List.flatten found))
        (cmds.foldlM (env.runCommand toolPath) chunk)
        (cmds.mapM (env.commandInclusions toolPath)) := by
  induction cmds with
  | nil =>
    intro chunk xs h
    rw [List.foldlM_nil, List.mapM_nil]
    refine .ok ?_
    rw [List.flatten_nil, List.append_nil]
    exact h
  | cons cmd cmds ih =>
    intro chunk xs h
    rw [List.foldlM_cons, List.mapM_cons]
    apply (runCommand_lists h toolPath cmd).bind
    intro chunk' found h'
    rw [← bind_pure (cmds.foldlM (env.runCommand toolPath) chunk')]
    apply (ih h').bind
    intro c found' hc
    refine .ok ?_
    rw [List.flatten_cons, ← List.append_assoc]
    exact hc

/-- The hints of a bundle are a list of inclusions, in any order. -/
structure GraphBundle.Tells (bundle : GraphBundle) (xs : List Inclusion) : Prop where
  told : ∀ hint ∈ bundle.hints, ∃ x ∈ xs, hint.inclusion bundle.vocabulary = some x
  listed : ∀ x ∈ xs, ∃ hint ∈ bundle.hints, hint.inclusion bundle.vocabulary = some x

theorem GraphBundle.Tells.mem_inclusions (h : bundle.Tells xs) :
    x ∈ bundle.inclusions ↔ x ∈ xs := by
  rw [GraphBundle.inclusions, List.mem_filterMap]
  constructor
  · intro hx
    obtain ⟨hint, hmem, hx⟩ := hx
    obtain ⟨x', hx', hincl⟩ := h.told hint hmem
    cases hincl.symm.trans hx
    exact hx'
  · exact h.listed x

/-- A pass over some of the commands makes the hints of what the tool tells of for them. -/
theorem chunkHints_tells (modulo n : Nat) (dependeeHints : List HintBundle) :
    SameOutcome GraphBundle.Tells (env.chunkHints modulo n dependeeHints)
      (env.chunkInclusions modulo n dependeeHints) := by
  rw [GraphEnv.chunkHints, GraphEnv.chunkInclusions, GraphEnv.toolCommands]
  simp only [bind_assoc]
  apply SameOutcome.bind_same
  intro makefiles _
  apply SameOutcome.bind_same
  intro allCommands _
  cases env.clangIncludeGraph with
  | none => exact .error _
  | some toolPath =>
    by_cases hpath : toolPath = []
    · simp only [hpath, if_true]
      exact .error _
    · simp only [hpath, if_false]
      have hstart : GraphChunk.Lists { vocab := [multiplexPassHint modulo] } [] := by
        refine ⟨?_, ?_, ?_⟩
        · intro path i hi
          cases hi
        · exact fun hint hmem => absurd hmem List.not_mem_nil
        · exact fun x hx => absurd hx List.not_mem_nil
      apply (runCommands_lists toolPath (getKthModuloN allCommands modulo n) hstart).bind
      intro c found hc
      exact .ok ⟨hc.told, hc.listed⟩

/-- A list of commands is dealt out to the passes: each command to exactly one of them. -/
theorem mem_getKthModuloN {commands : List α} {c : α} (hn : 0 < n) :
    (∃ k < n, c ∈ getKthModuloN commands k n) ↔ c ∈ commands := by
  constructor
  · rintro ⟨k, _, hc⟩
    obtain ⟨e, he, rfl⟩ := List.mem_map.1 hc
    exact List.fst_mem_of_mem_zipIdx (List.mem_filter.1 he).1
  · intro hc
    obtain ⟨i, hi⟩ := List.mem_iff_getElem?.1 hc
    refine ⟨i % n, Nat.mod_lt i hn, List.mem_map.2 ⟨(c, i), List.mem_filter.2 ⟨?_, ?_⟩, rfl⟩⟩
    · exact List.mk_mem_zipIdx_iff_getElem?.2 hi
    · exact decide_eq_true rfl

theorem getKthModuloN_one (commands : List α) : getKthModuloN commands 0 1 = commands := by
  have hall : (commands.zipIdx.filter fun c => c.2 % 1 = 0) = commands.zipIdx :=
    List.filter_eq_self.2 fun c _ => decide_eq_true (Nat.mod_one c.2)
  rw [getKthModuloN, hall, List.zipIdx_map_fst]

theorem getKey_textToVocab (vocab : List Bytes) :
    (∀ s i, getKey (textToVocab vocab) s = some i → vocab[i]? = some s) ∧
      ∀ s ∈ vocab, ∃ i, getKey (textToVocab vocab) s = some i := by
  induction vocab using List.reverseRecOn with
  | nil =>
    refine ⟨?_, fun s hs => absurd hs List.not_mem_nil⟩
    intro s i hi
    cases hi
  | append_singleton vocab word ih =>
    have hids : textToVocab (vocab ++ [word]) = setKey (textToVocab vocab) word vocab.length := by
      rw [textToVocab, List.zipIdx_append, List.foldl_append, Nat.zero_add]
      rfl
    rw [hids]
    constructor
    · intro s i hi
      by_cases hs : s = word
      · subst hs
        rw [getKey_setKey_self, Option.some.injEq] at hi
        subst hi
        exact List.getElem?_concat_length
      · rw [getKey_setKey_ne hs] at hi
        exact getElem?_grown (List.prefix_append vocab [word]) (ih.1 s i hi)
    · intro s hs
      by_cases heq : s = word
      · subst heq
        exact ⟨vocab.length, getKey_setKey_self _ s _⟩
      · rw [getKey_setKey_ne heq]
        refine ih.2 s ((List.mem_append.1 hs).resolve_right fun h => heq ?_)
        exact List.mem_singleton.1 h

/-- The hint of a type for an inclusion, with the indices of a vocabulary. -/
def Inclusion.typedHint (ids : Dict Bytes Nat) (x : Inclusion) (type : Nat) : GraphHint where
  type := some type
  patches := match x.site with
    | none => []
    | some (file, left, right) => [⟨some left, some right, getKey ids file⟩]
  extra := getKey ids x.file

/-- The words that an inclusion is told with. -/
def Inclusion.words (x : Inclusion) : List Bytes := x.file :: (x.site.map Prod.fst).toList

theorem mem_vocab_of_bind {i : Option Nat} {s : Bytes} (h : i.bind (vocab[·]?) = some s) :
    s ∈ vocab := by
  obtain ⟨i, rfl, hi⟩ := Option.bind_eq_some_iff.1 h
  exact List.mem_of_getElem? hi

theorem words_of_inclusion (h : hint.inclusion vocab = some x) : ∀ s ∈ x.words, s ∈ vocab := by
  unfold GraphHint.inclusion at h
  split at h
  · rename_i hextra
    cases h
    intro s hs
    obtain rfl := List.mem_singleton.1 hs
    exact mem_vocab_of_bind hextra
  · rename_i hextra
    obtain ⟨site, hsite, rfl⟩ := Option.map_eq_some_iff.1 h
    intro s hs
    rcases List.mem_cons.1 hs with rfl | hs
    · exact mem_vocab_of_bind hextra
    · obtain rfl := List.mem_singleton.1 hs
      exact mem_vocab_of_bind hsite
  · cases h

theorem remapId_ok {i : Option Nat} {s : Bytes} {ids : Dict Bytes Nat}
    (h : i.bind (bundle.vocabulary[·]?) = some s) (hid : getKey ids s = some j) :
    ∃ i', i = some i' ∧ remapId bundle ids i' = .ok j := by
  obtain ⟨i', rfl, hi⟩ := Option.bind_eq_some_iff.1 h
  refine ⟨i', rfl, ?_⟩
  rw [remapId, GraphBundle.word, hi]
  exact lookupKey_ok.2 hid

/-- A remapped hint is the hint for the same inclusion with the indices of the new vocabulary. -/
theorem remapPathIds_ok {ids : Dict Bytes Nat} (h : hint.inclusion bundle.vocabulary = some x)
    (hids : ∀ s ∈ x.words, ∃ i, getKey ids s = some i) :
    ∃ new, remapPathIds hint bundle ids = .ok new ∧
      ∀ type, { new with type := some type } = x.typedHint ids type := by
  unfold GraphHint.inclusion at h
  split at h
  · rename_i hpatches hextra
    cases h
    obtain ⟨j, hj⟩ := hids _ (List.mem_singleton_self _)
    obtain ⟨i, hi, hremap⟩ := remapId_ok hextra hj
    refine ⟨{ hint with patches := [], extra := some j }, ?_, fun type => ?_⟩
    · rw [remapPathIds, hi, hpatches, List.mapM_nil]
      simp only [hremap]
      rfl
    · rw [Inclusion.typedHint, hj]
  · rename_i left right path _ hpatches hextra
    obtain ⟨site, hsite, rfl⟩ := Option.map_eq_some_iff.1 h
    obtain ⟨j, hj⟩ := hids _ List.mem_cons_self
    obtain ⟨k, hk⟩ := hids site (List.mem_cons_of_mem _ (List.mem_singleton_self site))
    obtain ⟨i, hi, hremap⟩ := remapId_ok hextra hj
    obtain ⟨p, hp, hremap'⟩ := remapId_ok hsite hk
    refine ⟨{ hint with patches := [⟨some left, some right, some k⟩], extra := some j }, ?_,
      fun type => ?_⟩
    · rw [remapPathIds, hi, hpatches, hp, List.mapM_cons, List.mapM_nil]
      simp only [remapPath, hremap, hremap']
      rfl
    · rw [Inclusion.typedHint, hj]
      simp only [hk]
  · cases h

/-- What the main pass adds to its set for an inclusion. -/
def insertTyped (ids : Dict Bytes Nat) (hints : List GraphHint) (x : Inclusion) : List GraphHint :=
  [filerefVocabId, cIncludeVocabId].foldl (fun hints tp => hints.insert (x.typedHint ids tp)) hints

theorem addRemapped_ok {ids : Dict Bytes Nat} (h : hint.inclusion bundle.vocabulary = some x)
    (hids : ∀ s ∈ x.words, ∃ i, getKey ids s = some i) (hints : List GraphHint) :
    addRemapped ids bundle hints hint = .ok (insertTyped ids hints x) := by
  obtain ⟨new, hnew, htyped⟩ := remapPathIds_ok h hids
  rw [addRemapped, hnew]
  simp only [insertTyped, ← htyped]
  rfl

theorem mem_insertTyped {ids : Dict Bytes Nat} {hints : List GraphHint} :
    hint ∈ insertTyped ids hints x ↔
      hint ∈ hints ∨ ∃ tp ∈ [filerefVocabId, cIncludeVocabId], hint = x.typedHint ids tp := by
  simp only [insertTyped, List.foldl_cons, List.foldl_nil, List.mem_insert_iff, List.mem_cons,
    List.not_mem_nil, or_false, exists_eq_or_imp, exists_eq_left]
  constructor
  · rintro (h | h | h)
    · exact .inr (.inr h)
    · exact .inr (.inl h)
    · exact .inl h
  · rintro (h | h | h)
    · exact .inr (.inr h)
    · exact .inr (.inl h)
    · exact .inl h

theorem mem_foldl_insertTyped {ids : Dict Bytes Nat} (xs : List Inclusion) :
    ∀ {hints : List GraphHint}, hint ∈ xs.foldl (insertTyped ids) hints ↔
      hint ∈ hints ∨ ∃ tp ∈ [filerefVocabId, cIncludeVocabId],
        ∃ x ∈ xs, hint = x.typedHint ids tp := by
  induction xs with
  | nil =>
    intro hints
    simp
  | cons x xs ih =>
    intro hints
    rw [List.foldl_cons, ih, mem_insertTyped, or_assoc]
    simp only [List.exists_mem_cons_iff, and_or_left, exists_or]

theorem nodup_foldl_insertTyped {ids : Dict Bytes Nat} (xs : List Inclusion) :
    ∀ {hints : List GraphHint}, hints.Nodup → (xs.foldl (insertTyped ids) hints).Nodup := by
  induction xs with
  | nil => exact id
  | cons x xs ih =>
    intro hints h
    exact ih ((h.insert).insert)

/-- All hints of the bundle decode, so that remapping meets no missing index. -/
def GraphBundle.Decodes (bundle : GraphBundle) : Prop :=
  ∀ hint ∈ bundle.hints, ∃ x, hint.inclusion bundle.vocabulary = some x

theorem foldlM_addRemapped {ids : Dict Bytes Nat}
    (hids : ∀ s ∈ bundle.vocabulary, ∃ i, getKey ids s = some i) (l : List GraphHint) : (∀ hint ∈ l, ∃ x, hint.inclusion bundle.vocabulary = some x) →
      ∀ hints, l.foldlM (addRemapped ids bundle) hints =
        .ok ((l.filterMap (GraphHint.inclusion bundle.vocabulary)).foldl
          (insertTyped ids) hints) := by
  induction l with
  | nil => exact fun _ _ => rfl
  | cons hint l ih =>
    intro h hints
    obtain ⟨x, hx⟩ := h hint List.mem_cons_self
    have hadd := addRemapped_ok hx (fun s hs => hids s (words_of_inclusion hx s hs)) hints
    rw [List.foldlM_cons, hadd, List.filterMap_cons_some hx, List.foldl_cons]
    exact ih (fun hint' hmem => h hint' (List.mem_cons_of_mem hint hmem)) _

theorem foldlM_bundles (ids : Dict Bytes Nat) (deps : List GraphBundle) :
    (∀ b ∈ deps, b.Decodes ∧ ∀ s ∈ b.vocabulary, ∃ i, getKey ids s = some i) →
      ∀ hints, deps.foldlM (fun hints b => b.hints.foldlM (addRemapped ids b) hints) hints =
        .ok ((deps.flatMap GraphBundle.inclusions).foldl (insertTyped ids) hints) := by
  induction deps with
  | nil => exact fun _ _ => rfl
  | cons b deps ih =>
    intro h hints
    obtain ⟨hdec, hids⟩ := h b List.mem_cons_self
    rw [List.foldlM_cons, foldlM_addRemapped hids b.hints hdec hints, List.flatMap_cons,
      List.foldl_append]
    exact ih (fun b' hmem => h b' (List.mem_cons_of_mem b hmem)) _

theorem mem_mergedVocab {deps : List GraphBundle} (hb : bundle ∈ deps)
    (hs : s ∈ bundle.vocabulary) : s ∈ mergedVocab deps := by
  apply List.mem_append_right
  rw [List.mem_insertionSort, List.mem_dedup]
  exact List.mem_flatMap.2 ⟨bundle, hb, hs⟩

theorem mergedVocab_perm {deps deps' : List GraphBundle} (h : deps'.Perm deps) :
    mergedVocab deps' = mergedVocab deps := by
  rw [mergedVocab, mergedVocab]
  congr 1
  have hperm := (h.flatMap_right (·.vocabulary)).dedup
  apply List.Perm.eq_of_pairwise _ (List.pairwise_insertionSort _ _)
    (List.pairwise_insertionSort _ _)
  · exact ((List.perm_insertionSort _ _).trans hperm).trans (List.perm_insertionSort _ _).symm
  · exact fun s t _ _ hst hts => List.le_antisymm hst hts

/-- The hints of the main pass, for bundles of which all hints decode. -/
theorem mergeGraphHints_ok {deps : List GraphBundle} (h : ∀ b ∈ deps, b.Decodes) :
    mergeGraphHints deps = .ok ⟨(deps.flatMap GraphBundle.inclusions).foldl
      (insertTyped (textToVocab (mergedVocab deps))) [], mergedVocab deps⟩ := by
  have hfold := foldlM_bundles (textToVocab (mergedVocab deps)) deps (fun b hb => ⟨h b hb,
    fun s hs => (getKey_textToVocab _).2 s (mem_mergedVocab hb hs)⟩) []
  rw [mergeGraphHints, hfold]
  rfl

theorem decoded_hint {hints : List GraphHint} {tp : Nat} {type : Bytes}
    (htype : vocab[tp]? = some type)
    (hwords : ∀ s ∈ x.words, s ∈ vocab) :
    GraphBundle.decoded ⟨hints, vocab⟩ (x.typedHint (textToVocab vocab) tp) = some (type, x) := by
  have hindex : ∀ s ∈ x.words, (getKey (textToVocab vocab) s).bind (vocab[·]?) = some s := by
    intro s hs
    obtain ⟨i, hi⟩ := (getKey_textToVocab vocab).2 s (hwords s hs)
    rw [hi]
    exact (getKey_textToVocab vocab).1 s i hi
  obtain ⟨site, file⟩ := x
  have hfile := hindex file List.mem_cons_self
  cases site with
  | none =>
    simp only [GraphBundle.decoded, GraphHint.inclusion, Inclusion.typedHint, Option.bind_some,
      htype, hfile]
  | some site =>
    have hsite := hindex site.1 (List.mem_cons_of_mem _ (List.mem_singleton_self _))
    simp only [GraphBundle.decoded, GraphHint.inclusion, Inclusion.typedHint, Option.bind_some,
      htype, hfile, hsite, Option.map_some]

/-- All inclusions that the tool tells of, command by command. -/
def GraphEnv.allInclusions (env : GraphEnv) (dependeeHints : List HintBundle) :
    Except PyErr (List Inclusion) := do
  let (toolPath, allCommands) ← env.toolCommands dependeeHints
  let found ← allCommands.mapM (env.commandInclusions toolPath)
  return found.flatten

variable {dependeeHints : List HintBundle} {toolPath : Str} {allCommands : List (List Str)}

theorem chunkInclusions_single : env.chunkInclusions 0 1 dependeeHints =
    env.allInclusions dependeeHints := by
  simp only [GraphEnv.chunkInclusions, GraphEnv.allInclusions, getKthModuloN_one]

theorem chunkInclusions_eq (htool : env.toolCommands dependeeHints = .ok (toolPath, allCommands))
    (modulo n : Nat) : env.chunkInclusions modulo n dependeeHints =
      (getKthModuloN allCommands modulo n).mapM (env.commandInclusions toolPath) >>=
        fun found => .ok found.flatten := by
  rw [GraphEnv.chunkInclusions, htool]
  rfl

theorem chunkInclusions_isOk
    (htool : env.toolCommands dependeeHints = .ok (toolPath, allCommands)) :
    (∃ xs, env.chunkInclusions modulo n dependeeHints = .ok xs) ↔
      ∀ cmd ∈ getKthModuloN allCommands modulo n,
        ∃ ys, env.commandInclusions toolPath cmd = .ok ys := by
  rw [chunkInclusions_eq htool, ← except_mapM_isOk]
  constructor
  · intro hxs
    obtain ⟨xs, h⟩ := hxs
    obtain ⟨found, hfound, -⟩ := except_bind_ok.1 h
    exact ⟨found, hfound⟩
  · intro hfound
    obtain ⟨found, h⟩ := hfound
    exact ⟨found.flatten, except_bind_ok.2 ⟨found, h, rfl⟩⟩

theorem mem_chunkInclusions (htool : env.toolCommands dependeeHints = .ok (toolPath, allCommands))
    (h : env.chunkInclusions modulo n dependeeHints = .ok xs) :
    x ∈ xs ↔ ∃ cmd ∈ getKthModuloN allCommands modulo n,
      ∃ ys, env.commandInclusions toolPath cmd = .ok ys ∧ x ∈ ys := by
  rw [chunkInclusions_eq htool] at h
  obtain ⟨found, hfound, hxs⟩ := except_bind_ok.1 h
  cases hxs
  rw [List.mem_flatten]
  constructor
  · intro hx
    obtain ⟨ys, hys, hmem⟩ := hx
    obtain ⟨cmd, hcmd, hout⟩ := (except_mapM_mem hfound).1 hys
    exact ⟨cmd, hcmd, ys, hout, hmem⟩
  · intro hx
    obtain ⟨cmd, hcmd, ys, hout, hmem⟩ := hx
    exact ⟨ys, (except_mapM_mem hfound).2 ⟨cmd, hcmd, hout⟩, hmem⟩

def GraphEnv.multiplexBundles (env : GraphEnv) (dependeeHints : List HintBundle) :
    Except PyErr (List GraphBundle) :=
  (List.range initParallelization).mapM fun modulo => env.multiplexHints modulo dependeeHints

theorem toolCommands_of_chunkHints (h : env.chunkHints modulo n dependeeHints = .ok bundle) :
    ∃ toolPath allCommands, env.toolCommands dependeeHints = .ok (toolPath, allCommands) := by
  obtain ⟨xs, hxs, -⟩ := (chunkHints_tells modulo n dependeeHints).of_left h
  obtain ⟨r, hr, -⟩ := except_bind_ok.1 hxs
  exact ⟨r.1, r.2, hr⟩

theorem chunkHints_isOk : (∃ bundle, env.chunkHints modulo n dependeeHints = .ok bundle) ↔
    ∃ xs, env.chunkInclusions modulo n dependeeHints = .ok xs := by
  constructor
  · intro h
    obtain ⟨bundle, h⟩ := h
    obtain ⟨xs, hxs, -⟩ := (chunkHints_tells modulo n dependeeHints).of_left h
    exact ⟨xs, hxs⟩
  · intro h
    obtain ⟨xs, h⟩ := h
    obtain ⟨bundle, hbundle, -⟩ := (chunkHints_tells modulo n dependeeHints).of_right h
    exact ⟨bundle, hbundle⟩

theorem multiplexBundles_isOk :
    (∃ bundles, env.multiplexBundles dependeeHints = .ok bundles) ↔
      ∃ single, env.chunkHints 0 1 dependeeHints = .ok single := by
  rw [GraphEnv.multiplexBundles, except_mapM_isOk]
  constructor
  · intro h
    have hpass : ∀ k < initParallelization, ∃ b, env.chunkHints k initParallelization
        dependeeHints = .ok b := fun k hk => h k (List.mem_range.2 hk)
    obtain ⟨b, hb⟩ := hpass 0 (by decide)
    obtain ⟨toolPath, allCommands, htool⟩ := toolCommands_of_chunkHints hb
    rw [chunkHints_isOk, chunkInclusions_isOk htool, getKthModuloN_one]
    intro cmd hcmd
    obtain ⟨k, hk, hmem⟩ := (mem_getKthModuloN (n := initParallelization) (by decide)).2 hcmd
    exact (chunkInclusions_isOk htool).1 (chunkHints_isOk.1 (hpass k hk)) cmd hmem
  · intro h k hk
    obtain ⟨single, hsingle⟩ := h
    obtain ⟨toolPath, allCommands, htool⟩ := toolCommands_of_chunkHints hsingle
    have hall := (chunkInclusions_isOk htool).1 (chunkHints_isOk.1 ⟨single, hsingle⟩)
    rw [getKthModuloN_one] at hall
    refine chunkHints_isOk.2 ((chunkInclusions_isOk htool).2 fun cmd hcmd => hall cmd ?_)
    exact (mem_getKthModuloN (n := initParallelization) (by decide)).1
      ⟨k, List.mem_range.1 hk, hcmd⟩

theorem mem_multiplexBundles (h : env.multiplexBundles dependeeHints = .ok bundles)
    (hall : env.allInclusions dependeeHints = .ok xs) :
    (∃ b ∈ bundles, x ∈ b.inclusions) ↔ x ∈ xs := by
  rw [← chunkInclusions_single] at hall
  obtain ⟨single, hsingle, -⟩ := (chunkHints_tells 0 1 dependeeHints).of_right hall
  obtain ⟨toolPath, allCommands, htool⟩ := toolCommands_of_chunkHints hsingle
  rw [mem_chunkInclusions htool hall, getKthModuloN_one]
  constructor
  · intro hx
    obtain ⟨b, hb, hx⟩ := hx
    obtain ⟨k, hk, hpass⟩ := (except_mapM_mem h).1 hb
    obtain ⟨ys, hys, htells⟩ := (chunkHints_tells k initParallelization dependeeHints).of_left hpass
    obtain ⟨cmd, hcmd, hout⟩ := (mem_chunkInclusions htool hys).1 (htells.mem_inclusions.1 hx)
    exact ⟨cmd, (mem_getKthModuloN (n := initParallelization) (by decide)).1
      ⟨k, List.mem_range.1 hk, hcmd⟩, hout⟩
  · intro hx
    obtain ⟨cmd, hcmd, hout⟩ := hx
    obtain ⟨k, hk, hmem⟩ := (mem_getKthModuloN (n := initParallelization) (by decide)).2 hcmd
    obtain ⟨b, hpass⟩ := except_mapM_isOk.1 ⟨bundles, h⟩ k (List.mem_range.2 hk)
    obtain ⟨ys, hys, htells⟩ := (chunkHints_tells k initParallelization dependeeHints).of_left hpass
    exact ⟨b, (except_mapM_mem h).2 ⟨k, List.mem_range.2 hk, hpass⟩,
      htells.mem_inclusions.2 ((mem_chunkInclusions htool hys).2 ⟨cmd, hmem, hout⟩)⟩

/-- A bundle that is the same but for the order of its hints. -/
def GraphBundle.SameHints (b b' : GraphBundle) : Prop :=
  b'.vocabulary = b.vocabulary ∧ ∀ hint, hint ∈ b'.hints ↔ hint ∈ b.hints

/-- What the main pass is given: the bundles that have hints, in any order. -/
structure Delivered (bundles deps : List GraphBundle) : Prop where
  made : ∀ d ∈ deps, ∃ b ∈ bundles, b.SameHints d
  complete : ∀ b ∈ bundles, b.hints ≠ [] → ∃ d ∈ deps, b.SameHints d

theorem GraphBundle.SameHints.mem_inclusions {b b' : GraphBundle} (h : b.SameHints b') :
    x ∈ b'.inclusions ↔ x ∈ b.inclusions := by
  simp only [GraphBundle.inclusions, List.mem_filterMap, h.1, h.2]

theorem Delivered.mem_inclusions (h : Delivered bundles deps) :
    x ∈ deps.flatMap GraphBundle.inclusions ↔ ∃ b ∈ bundles, x ∈ b.inclusions := by
  rw [List.mem_flatMap]
  constructor
  · intro hx
    obtain ⟨d, hd, hx⟩ := hx
    obtain ⟨b, hb, hsame⟩ := h.made d hd
    exact ⟨b, hb, hsame.mem_inclusions.1 hx⟩
  · intro hx
    obtain ⟨b, hb, hx⟩ := hx
    have hne : b.hints ≠ [] := by
      intro hnil
      rw [GraphBundle.inclusions, hnil] at hx
      cases hx
    obtain ⟨d, hd, hsame⟩ := h.complete b hb hne
    exact ⟨d, hd, hsame.mem_inclusions.2 hx⟩

theorem Delivered.decodes (h : Delivered bundles deps)
    (hmade : env.multiplexBundles dependeeHints = .ok bundles) : ∀ d ∈ deps, d.Decodes := by
  intro d hd hint hmem
  obtain ⟨b, hb, hsame⟩ := h.made d hd
  obtain ⟨k, -, hpass⟩ := (except_mapM_mem hmade).1 hb
  obtain ⟨ys, -, htells⟩ := (chunkHints_tells k initParallelization dependeeHints).of_left hpass
  obtain ⟨x, -, hx⟩ := htells.told hint ((hsame.2 hint).1 hmem)
  rw [← hsame.1] at hx
  exact ⟨x, hx⟩

/-- What the merged hints are, by the inclusions of the bundles. -/
theorem mergeGraphHints_decoded (hdec : ∀ b ∈ deps, b.Decodes)
    (h : mergeGraphHints deps = .ok merged) :
    (merged.hints.map merged.decoded).Nodup ∧
      ∀ d, d ∈ merged.hints.map merged.decoded ↔
        ∃ type ∈ graphHintVocab, ∃ x ∈ deps.flatMap GraphBundle.inclusions,
          d = some (type, x) := by
  rw [mergeGraphHints_ok hdec, Except.ok.injEq] at h
  subst h
  have hwords : ∀ x ∈ deps.flatMap GraphBundle.inclusions, ∀ s ∈ x.words,
      s ∈ mergedVocab deps := by
    intro x hx s hs
    obtain ⟨b, hb, hx⟩ := List.mem_flatMap.1 hx
    obtain ⟨hint, -, hincl⟩ := List.mem_filterMap.1 hx
    exact mem_mergedVocab hb (words_of_inclusion hincl s hs)
  have htypes : ∀ tp ∈ [filerefVocabId, cIncludeVocabId], ∃ type,
      graphHintVocab[tp]? = some type ∧ (mergedVocab deps)[tp]? = some type := by
    intro tp htp
    have hlt : tp < graphHintVocab.length := by
      rcases List.mem_cons.1 htp with rfl | htp
      · decide
      · obtain rfl := List.mem_singleton.1 htp
        decide
    refine ⟨graphHintVocab[tp], List.getElem?_eq_getElem hlt, ?_⟩
    exact getElem?_grown (List.prefix_append _ _) (List.getElem?_eq_getElem hlt)
  have hmem : ∀ hint, hint ∈ (deps.flatMap GraphBundle.inclusions).foldl
      (insertTyped (textToVocab (mergedVocab deps))) [] ↔
        ∃ tp ∈ [filerefVocabId, cIncludeVocabId], ∃ x ∈ deps.flatMap GraphBundle.inclusions,
          hint = x.typedHint (textToVocab (mergedVocab deps)) tp := by
    intro hint
    rw [mem_foldl_insertTyped]
    exact or_iff_right List.not_mem_nil
  constructor
  · refine List.Nodup.map_on ?_ (nodup_foldl_insertTyped _ List.nodup_nil)
    intro hint hh hint' hh' heq
    obtain ⟨tp, htp, x, hx, rfl⟩ := (hmem hint).1 hh
    obtain ⟨tp', htp', x', hx', rfl⟩ := (hmem hint').1 hh'
    obtain ⟨type, htype, hvocab⟩ := htypes tp htp
    obtain ⟨type', htype', hvocab'⟩ := htypes tp' htp'
    rw [decoded_hint hvocab (hwords x hx), decoded_hint hvocab' (hwords x' hx'),
      Option.some.injEq, Prod.mk.injEq] at heq
    obtain ⟨rfl, rfl⟩ := heq
    have hnodup : graphHintVocab.Nodup := by decide
    obtain ⟨hlt, hget⟩ := List.getElem?_eq_some_iff.1 htype
    obtain ⟨hlt', hget'⟩ := List.getElem?_eq_some_iff.1 htype'
    rw [(hnodup.getElem_inj_iff).1 (hget.trans hget'.symm)]
  · intro d
    rw [List.mem_map]
    constructor
    · intro hd
      obtain ⟨hint, hh, rfl⟩ := hd
      obtain ⟨tp, htp, x, hx, rfl⟩ := (hmem hint).1 hh
      obtain ⟨type, htype, hvocab⟩ := htypes tp htp
      exact ⟨type, List.mem_of_getElem? htype, x, hx, decoded_hint hvocab (hwords x hx)⟩
    · intro hd
      obtain ⟨type, htype, x, hx, rfl⟩ := hd
      have htp : ∃ tp ∈ [filerefVocabId, cIncludeVocabId], graphHintVocab[tp]? = some type := by
        rcases List.mem_cons.1 htype with rfl | htype
        · exact ⟨filerefVocabId, List.mem_cons_self, rfl⟩
        · obtain rfl := List.mem_singleton.1 htype
          exact ⟨cIncludeVocabId, List.mem_cons_of_mem _ (List.mem_singleton_self _), rfl⟩
      obtain ⟨tp, htp, hget⟩ := htp
      obtain ⟨type', htype', hvocab⟩ := htypes tp htp
      cases hget.symm.trans htype'
      exact ⟨_, (hmem _).2 ⟨tp, htp, x, hx, rfl⟩, decoded_hint hvocab (hwords x hx)⟩

/-- The order of the bundles has no influence on the vocabulary, nor on the set of the hints. -/
theorem mergeGraphHints_perm (hdec : ∀ b ∈ deps, b.Decodes) (hperm : deps'.Perm deps)
    (h : mergeGraphHints deps = .ok merged) :
    ∃ merged', mergeGraphHints deps' = .ok merged' ∧ merged'.vocabulary = merged.vocabulary ∧
      merged'.hints.Perm merged.hints := by
  rw [mergeGraphHints_ok hdec, Except.ok.injEq] at h
  subst h
  refine ⟨_, mergeGraphHints_ok fun b hb => hdec b (hperm.mem_iff.1 hb), mergedVocab_perm hperm, ?_⟩
  rw [mergedVocab_perm hperm]
  apply (List.perm_ext_iff_of_nodup (nodup_foldl_insertTyped _ List.nodup_nil)
    (nodup_foldl_insertTyped _ List.nodup_nil)).2
  intro hint
  simp only [mem_foldl_insertTyped, (hperm.flatMap_right GraphBundle.inclusions).mem_iff]

/-- The hints that are merged from the multiplex passes are those that one pass over all commands
would make, and these are the inclusions that the tool tells of. -/
theorem mergeGraphHints_single (env : GraphEnv) (makefileHints : List HintBundle) :
    ((∃ bundles, env.multiplexBundles makefileHints = .ok bundles) ↔
      ∃ single, env.chunkHints 0 1 makefileHints = .ok single) ∧
    ∀ bundles deps single, env.multiplexBundles makefileHints = .ok bundles →
      Delivered bundles deps → env.chunkHints 0 1 makefileHints = .ok single →
      ∃ merged found, mergeGraphHints deps = .ok merged ∧
        env.allInclusions makefileHints = .ok found ∧
        (merged.hints.map merged.decoded).Nodup ∧
        (∀ d, d ∈ merged.hints.map merged.decoded ↔
          ∃ type ∈ graphHintVocab, ∃ x ∈ single.inclusions, d = some (type, x)) ∧
        (∀ x, x ∈ single.inclusions ↔ x ∈ found) ∧
        ∀ deps', deps'.Perm deps → ∃ merged', mergeGraphHints deps' = .ok merged' ∧
          merged'.vocabulary = merged.vocabulary ∧ merged'.hints.Perm merged.hints := by
  refine ⟨multiplexBundles_isOk, ?_⟩
  intro bundles deps single hbundles hdeps hsingle
  have hdec := hdeps.decodes hbundles
  obtain ⟨found, hfound, htells⟩ := (chunkHints_tells 0 1 makefileHints).of_left hsingle
  rw [chunkInclusions_single] at hfound
  have hmerged := mergeGraphHints_ok hdec
  obtain ⟨hnodup, hmem⟩ := mergeGraphHints_decoded hdec hmerged
  refine ⟨_, found, hmerged, hfound, hnodup, ?_, fun x => htells.mem_inclusions, ?_⟩
  · intro d
    rw [hmem d]
    simp only [hdeps.mem_inclusions, mem_multiplexBundles hbundles hfound, htells.mem_inclusions]
  · exact fun deps' hperm => mergeGraphHints_perm hdec hperm hmerged

def twoCommands : GraphEnv where
  testCase := [['/'], ['t']]
  resolve := .ok
  readFile _ := .ok (encode "a:\n\tgcc x\n\tgcc y\n".toList)
  clangIncludeGraph := some ['g']
  checkOutput proc := .ok (encode
    (if proc.getLast? = some ['x'] then "x\x000\x009\x00h\x00".toList
      else "x\x000\x009\x00h\x00/s\x001\x002\x00h\x00x\x003".toList))
  int s := .ok (s.foldl (fun n c => 10 * n + (c.toNat - 48)) 0)
  isAlnum := Char.isAlphanum

def makefileHint : HintBundle where
  hints := [{ type := some 0, extra := some 1 }]
  vocabulary := [encode "@makefile".toList, [109]]

/-- The bundles that the first two multiplex passes make for them. -/
def twoChunks : List GraphBundle :=
  [⟨[⟨some 0, [⟨some 0, some 9, some 2⟩], some 1⟩], [multiplexPassHint 0, [104], [120]]⟩,
    ⟨[⟨some 0, [], some 1⟩, ⟨some 0, [⟨some 0, some 9, some 2⟩], some 1⟩],
      [multiplexPassHint 1, [104], [120]]⟩]

def tenChunks : List GraphBundle :=
  twoChunks ++ (List.range' 2 8).map fun modulo => ⟨[], [multiplexPassHint modulo]⟩

theorem tenChunks_delivered : Delivered tenChunks twoChunks.reverse := by
  have hmade : ∀ d ∈ twoChunks.reverse, d ∈ tenChunks := by decide +kernel
  have hcomplete : ∀ b ∈ tenChunks, b.hints ≠ [] → b ∈ twoChunks.reverse := by decide +kernel
  constructor
  · exact fun d hd => ⟨d, hmade d hd, rfl, fun _ => Iff.rfl⟩
  · exact fun b hb hne => ⟨b, hcomplete b hb hne, rfl, fun _ => Iff.rfl⟩

theorem mergeGraphHints_single_two :
    ∃ merged, mergeGraphHints twoChunks.reverse = .ok merged ∧
      (merged.hints.map merged.decoded).Nodup ∧
      ∀ d, d ∈ merged.hints.map merged.decoded ↔ ∃ type ∈ graphHintVocab,
        ∃ x ∈ [⟨none, [104]⟩, ⟨some ([120], 0, 9), [104]⟩], d = some (type, x) := by
  obtain ⟨single, hsingle⟩ : ∃ single, twoCommands.chunkHints 0 1 [makefileHint] = .ok single ∧
      single.inclusions = [⟨none, [104]⟩, ⟨some ([120], 0, 9), [104]⟩] := by
    refine ⟨⟨[⟨some 0, [], some 1⟩, ⟨some 0, [⟨some 0, some 9, some 2⟩], some 1⟩],
      [multiplexPassHint 0, [104], [120]]⟩, ?_⟩
    decide +kernel
  obtain ⟨merged, -, hmerged, -, hnodup, hmem, -⟩ := (mergeGraphHints_single twoCommands
    [makefileHint]).2 tenChunks twoChunks.reverse single (by decide +kernel) tenChunks_delivered
      hsingle.1
  rw [hsingle.2] at hmem
  exact ⟨merged, hmerged, hnodup, hmem⟩

end Cvise
