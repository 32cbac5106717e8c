import Cvise.ApplyHints
import Cvise.HintState

namespace Cvise
set_option autoImplicit true

inductive PassResult where
  | ok
  | invalid
  | stop
  | error
deriving DecidableEq

/-- The random numbers and the answers of external programs that one call of a method gets. -/
abbrev Seed := Nat → Nat

structure FoldingStateOut where
  subStates : List HintState
  sizeDeltaPerPass : Dict Str Int
  passesOrderedByDelta : List Str
deriving DecidableEq

/-- A state of a pass or of a fold; `L` stands for the states of the passes without hints. -/
inductive PassState (L : Type) where
  | legacy (s : L)
  | hint (s : HintState)
  | foldIn (subStates : List HintState)
  | foldOut (s : FoldingStateOut)

variable {L : Type}

/-- The types that a bundle's hints can have when a pass declares these outputs. -/
def HintBundle.TypesIn (b : HintBundle) (outputs : List Bytes) : Prop :=
  ∀ h ∈ b.hints, ∀ type, b.typeOf h = .ok type → type = [] ∨ type ∈ outputs

/-- What a subclass of `HintBasedPass` defines. `generateNew` and `generateOnSuccess` are both
`generate_hints`, except for `ClangHintsPass`, whose state remembers a standard. -/
structure HintMethods where
  inputHintTypes : List Bytes
  outputHintTypes : List Bytes
  supportsDirTestCases : Bool
  generateNew : Seed → TestCase → List HintBundle → Except PyErr (HintBundle × Option Str)
  generateOnSuccess : Seed → TestCase → Option Str → List HintBundle → Except PyErr HintBundle
  createElementaryState : Nat → Nat → Option ElementaryState
  inputs_typed : [] ∉ inputHintTypes
  new_typed : ∀ seed tc deps b, generateNew seed tc deps = .ok b → b.1.TypesIn outputHintTypes
  onSuccess_typed : ∀ seed tc std deps b, generateOnSuccess seed tc std deps = .ok b →
    b.TypesIn outputHintTypes

/-- What a pass without hints defines. It works on files only. -/
structure LegacyMethods (L : Type) where
  new : Seed → TestCase → Except PyErr (Option L)
  advance : Nat → TestCase → L → Except PyErr (Option L)
  advanceOnSuccess : Seed → TestCase → L → Option L → Except PyErr (Option L)
  transform : Seed → Bytes → L → Except PyErr (PassResult × Option L × Bytes)
  /-- `real_chunk()` of its states, or 1 where they have none. -/
  realChunk : L → Nat

inductive PassMethods (L : Type) where
  | hint (m : HintMethods)
  | legacy (m : LegacyMethods L)

structure Pass (L : Type) where
  repr : Str
  userVisibleName : Str
  maxTransforms : Option Nat := none
  methods : PassMethods L

namespace Pass

/-- `isinstance(pass, HintBasedPass)`. -/
def isHintBased (p : Pass L) : Bool :=
  match p.methods with
  | .hint _ => true
  | .legacy _ => false

/-- The input types; a pass without hints has none. -/
def inputHintTypes (p : Pass L) : List Bytes :=
  match p.methods with
  | .hint m => m.inputHintTypes
  | .legacy _ => []

def outputHintTypes (p : Pass L) : List Bytes :=
  match p.methods with
  | .hint m => m.outputHintTypes
  | .legacy _ => []

def supportsDirTestCases (p : Pass L) : Bool :=
  match p.methods with
  | .hint m => m.supportsDirTestCases
  | .legacy _ => false

/-- `real_chunk()` of a state of a pass without hints. -/
def realChunk (p : Pass L) (s : L) : Nat :=
  match p.methods with
  | .hint _ => 1
  | .legacy m => m.realChunk s

theorem inputs_typed (p : Pass L) : [] ∉ p.inputHintTypes := by
  rw [inputHintTypes]
  cases p.methods with
  | hint m => exact m.inputs_typed
  | legacy m => exact List.not_mem_nil

def advance (p : Pass L) (rnd : Nat) (tc : TestCase) (s : PassState L) :
    Except PyErr (Option (PassState L)) :=
  match p.methods, s with
  | .hint _, .hint s => .ok ((s.advance rnd).map .hint)
  | .legacy m, .legacy s => do return (← m.advance rnd tc s).map .legacy
  | _, _ => .error .other

end Pass

/-- `backfill_pass_names` for one bundle. -/
def backfillPassNames (p : Pass L) (b : HintBundle) : HintBundle :=
  { b with
    passName := if b.passName = [] then p.repr else b.passName
    passUserVisibleName :=
      if b.passUserVisibleName = [] then p.userVisibleName else b.passUserVisibleName }

abbrev HintFiles := List (FileName × HintBundle)

/-- `_store_hints_per_type`. Types and vocabularies that are not UTF-8 cannot be stored. -/
def storeHintsPerType (typeToBundle : Dict Bytes HintBundle) :
    Except PyErr (HintState.StoredTypes × HintFiles) :=
  if typeToBundle.all fun e => (decode e.1).isSome ∧ e.2.vocabulary.all fun w => (decode w).isSome
  then .ok (typeToBundle.zipIdx.map fun e => (e.1.1, e.1.2, e.2),
    typeToBundle.zipIdx.map fun e => (e.2, e.1.2))
  else .error .unicodeDecodeError

/-- The hints of the bundle by type, sorted and with names, and the files that store them. -/
def storeBundle (p : Pass L) (bundle : HintBundle) :
    Except PyErr (HintState.StoredTypes × HintFiles) := do
  let typeToBundle ← groupHintsByType bundle
  storeHintsPerType (typeToBundle.map fun e => (e.1, sortHints (backfillPassNames p e.2)))

/-- The enumerations over the types that are not special; `rnd` has a random number for each. -/
def createSubStates (m : HintMethods) (rnd : Nat → Nat) (stored : HintState.StoredTypes) :
    List PerTypeHintState :=
  stored.zipIdx.filterMap fun e =>
    if isSpecialHintType e.1.1 then none
    else (m.createElementaryState (rnd e.2) e.1.2.1.hints.length).map fun u =>
      ⟨e.1.1, e.1.2.2, u⟩

/-- What a method that generates hints leaves: the state and the files in its directory. -/
abbrev Generated := Option HintState × HintFiles

def newFromHints (p : Pass L) (m : HintMethods) (rnd : Nat → Nat) (bundle : HintBundle)
    (clangStd : Option Str) (tmpDir : DirName) : Except PyErr Generated :=
  if bundle.hints = [] then .ok (none, [])
  else do
    let (stored, files) ← storeBundle p bundle
    let subStates := createSubStates m rnd stored
    let specialStates := HintState.specialStates stored
    if subStates = [] ∧ specialStates = [] then return (none, files)
    else return (some (.create tmpDir subStates specialStates clangStd), files)

def advanceOnSuccessFromHints (p : Pass L) (rnd : Nat → Nat) (bundle : HintBundle)
    (state : HintState) (newTmpDir : DirName) : Except PyErr Generated :=
  if bundle.hints = [] then .ok (none, [])
  else do
    let (stored, files) ← storeBundle p bundle
    return (state.advanceOnSuccess rnd stored newTmpDir, files)

namespace Pass

/-- `new()`, with the files that it writes to its directory. -/
def new (p : Pass L) (seed : Seed) (tc : TestCase) (tmpDir : DirName)
    (dependeeHints : List HintBundle) : Except PyErr (Option (PassState L) × HintFiles) :=
  match p.methods with
  | .hint m => do
    let (bundle, clangStd) ← m.generateNew seed tc dependeeHints
    let (state, files) ← newFromHints p m seed bundle clangStd tmpDir
    return (state.map .hint, files)
  | .legacy m => do return ((← m.new seed tc).map .legacy, [])

def legacyState : PassState L → Option L
  | .legacy s => some s
  | _ => none

def advanceOnSuccess (p : Pass L) (seed : Seed) (tc : TestCase) (state : PassState L)
    (newTmpDir : DirName) (succeededState : Option (PassState L))
    (dependeeHints : List HintBundle) : Except PyErr (Option (PassState L) × HintFiles) :=
  match p.methods, state with
  | .hint m, .hint s => do
    let bundle ← m.generateOnSuccess seed tc s.clangStd dependeeHints
    let (state', files) ← advanceOnSuccessFromHints p seed bundle s newTmpDir
    return (state'.map .hint, files)
  | .legacy m, .legacy s => do
    return ((← m.advanceOnSuccess seed tc s (succeededState.bind legacyState)).map .legacy, [])
  | _, _ => .error .other

end Pass

theorem groupHintsByType_types {b : HintBundle} (h : groupHintsByType b = .ok grouped) :
    ∀ e ∈ grouped, ∃ x ∈ b.hints, b.typeOf x = .ok e.1 := by
  apply foldlM_invariant _ _ h
  · intro g x g' hx hg hstep
    rw [addToGroup, except_bind_ok] at hstep
    obtain ⟨type, htype, hstep⟩ := hstep
    split at hstep
    · cases hstep
      intro e he
      obtain ⟨e₀, he₀, rfl⟩ := List.mem_map.1 he
      split
      · exact hg e₀ he₀
      · exact hg e₀ he₀
    · cases hstep
      intro e he
      rcases List.mem_append.1 he with he | he
      · exact hg e he
      · rw [List.mem_singleton.1 he]
        exact ⟨x, hx, htype⟩
  · simp

/-- The files that `storeBundle` names are those it wrote, and the types are those of the hints. -/
theorem storeBundle_stored {p : Pass L} {b : HintBundle} (h : storeBundle p b = .ok (stored, files)) :
    ∀ e ∈ stored, (e.2.2, e.2.1) ∈ files ∧ ∃ x ∈ b.hints, b.typeOf x = .ok e.1 := by
  rw [storeBundle, except_bind_ok] at h
  obtain ⟨grouped, hgroup, h⟩ := h
  rw [storeHintsPerType] at h
  split at h
  · cases h
    intro e he
    obtain ⟨⟨⟨type, bundle⟩, i⟩, hi, rfl⟩ := List.mem_map.1 he
    apply And.intro
    · exact List.mem_map.2 ⟨_, hi, rfl⟩
    · obtain ⟨g, hg, heq⟩ := List.mem_map.1 (List.mem_of_getElem? (List.mem_zipIdx_iff_getElem?.1 hi))
      obtain ⟨x, hx, htype⟩ := groupHintsByType_types hgroup g hg
      exact ⟨x, hx, by rw [htype, ← congrArg Prod.fst heq]⟩
  · cases h

/-- The state's hint files are among those written to its directory, and are of declared types. -/
structure HintState.StoredIn (s : HintState) (p : Pass L) (d : DirName) (files : HintFiles) :
    Prop where
  dir : s.tmpDir = d
  written : ∀ e ∈ s.hintBundlePaths, ∃ b, (e.2.2, b) ∈ files
  typed : ∀ e ∈ s.hintBundlePaths, e.1 = [] ∨ e.1 ∈ p.outputHintTypes

theorem mem_hintBundlePaths {s : HintState} : e ∈ s.hintBundlePaths ↔ e.2.1 = s.tmpDir ∧
    ((∃ u ∈ s.perTypeStates, u.type = e.1 ∧ u.hintsFileName = e.2.2) ∨
      ∃ u ∈ s.specialHints, u.type = e.1 ∧ u.hintsFileName = e.2.2) := by
  obtain ⟨type, dir, file⟩ := e
  simp only [HintState.hintBundlePaths, List.mem_append, List.mem_map, Prod.mk.injEq]
  grind

theorem specialStates_mem {stored : HintState.StoredTypes} (h : u ∈ HintState.specialStates stored) :
    ∃ e ∈ stored, u.type = e.1 ∧ u.hintsFileName = e.2.2 := by
  obtain ⟨e, he, rfl⟩ := List.mem_map.1 h
  exact ⟨e, (List.mem_filter.1 he).1, rfl, rfl⟩

theorem createSubStates_mem {m : HintMethods} (h : u ∈ createSubStates m rnd stored) :
    ∃ e ∈ stored, u.type = e.1 ∧ u.hintsFileName = e.2.2 := by
  obtain ⟨⟨e, i⟩, hi, he⟩ := List.mem_filterMap.1 h
  split at he
  · cases he
  · obtain ⟨w, _, rfl⟩ := Option.map_eq_some_iff.1 he
    exact ⟨e, List.mem_of_getElem? (List.mem_zipIdx_iff_getElem?.1 hi), rfl, rfl⟩

theorem advanceSubstate_mem {stored : HintState.StoredTypes}
    (h : HintState.advanceSubstate stored old rnd = some u) :
    ∃ e ∈ stored, u.type = e.1 ∧ u.hintsFileName = e.2.2 := by
  rw [HintState.advanceSubstate] at h
  split at h
  · cases h
  · rename_i bundle file hfind
    obtain ⟨e, he, heq⟩ := Option.map_eq_some_iff.1 hfind
    obtain ⟨w, _, rfl⟩ := Option.map_eq_some_iff.1 h
    have htype : e.1 = old.type := by simpa using List.find?_some he
    exact ⟨e, List.mem_of_find?_eq_some he, htype.symm, (congrArg Prod.snd heq).symm⟩

/-- A state all of whose types and files come from what was stored. -/
theorem storedIn_of {p : Pass L} {s : HintState} (hstore : storeBundle p b = .ok (stored, files))
    (htyped : b.TypesIn p.outputHintTypes) (hdir : s.tmpDir = d)
    (hsub : ∀ u ∈ s.perTypeStates, ∃ e ∈ stored, u.type = e.1 ∧ u.hintsFileName = e.2.2)
    (hspecial : ∀ u ∈ s.specialHints, ∃ e ∈ stored, u.type = e.1 ∧ u.hintsFileName = e.2.2) :
    s.StoredIn p d files := by
  have hfrom : ∀ e ∈ s.hintBundlePaths, ∃ x ∈ stored, e.1 = x.1 ∧ e.2.2 = x.2.2 := by
    intro e he
    obtain ⟨_, ⟨u, hu, ht, hf⟩ | ⟨u, hu, ht, hf⟩⟩ := mem_hintBundlePaths.1 he
    · obtain ⟨x, hx, hxt, hxf⟩ := hsub u hu
      exact ⟨x, hx, ht ▸ hxt, hf ▸ hxf⟩
    · obtain ⟨x, hx, hxt, hxf⟩ := hspecial u hu
      exact ⟨x, hx, ht ▸ hxt, hf ▸ hxf⟩
  apply HintState.StoredIn.mk hdir
  · intro e he
    obtain ⟨x, hx, _, hfile⟩ := hfrom e he
    exact ⟨x.2.1, hfile ▸ (storeBundle_stored hstore x hx).1⟩
  · intro e he
    obtain ⟨x, hx, htype, _⟩ := hfrom e he
    obtain ⟨_, y, hy, hyt⟩ := storeBundle_stored hstore x hx
    exact htyped y hy e.1 (htype ▸ hyt)

theorem newFromHints_stored {p : Pass L} (htyped : b.TypesIn p.outputHintTypes)
    (h : newFromHints p m rnd b std d = .ok (some s, files)) : s.StoredIn p d files := by
  rw [newFromHints] at h
  split at h
  · cases h
  · rw [except_bind_ok] at h
    obtain ⟨⟨stored, files'⟩, hstore, h⟩ := h
    simp only at h
    split at h
    · cases h
    · cases h
      apply storedIn_of hstore htyped rfl
      · intro u hu
        exact createSubStates_mem ((List.mem_insertionSort _).1 hu)
      · intro u hu
        exact specialStates_mem ((List.mem_insertionSort _).1 hu)

theorem advanceOnSuccessFromHints_stored {p : Pass L} (htyped : b.TypesIn p.outputHintTypes)
    (h : advanceOnSuccessFromHints p rnd b s d = .ok (some s', files)) : s'.StoredIn p d files := by
  rw [advanceOnSuccessFromHints] at h
  split at h
  · cases h
  · rw [except_bind_ok] at h
    obtain ⟨⟨stored, files'⟩, hstore, h⟩ := h
    simp only [pure, Except.pure, HintState.advanceOnSuccess] at h
    split at h
    · cases h
    · cases h
      apply storedIn_of hstore htyped rfl
      · intro u hu
        obtain ⟨e, _, he⟩ := List.mem_filterMap.1 hu
        exact advanceSubstate_mem he
      · intro u hu
        exact specialStates_mem ((List.mem_insertionSort _).1 hu)

theorem Pass.new_stored {p : Pass L} (h : p.new seed tc d deps = .ok (some (.hint s), files)) :
    s.StoredIn p d files := by
  rw [Pass.new] at h
  split at h
  · rename_i m hm
    simp only [except_bind_ok] at h
    obtain ⟨⟨b, std⟩, hgen, ⟨state, files'⟩, hnew, h⟩ := h
    cases state with
    | none => cases h
    | some s' =>
      cases h
      have hout : p.outputHintTypes = m.outputHintTypes := by rw [Pass.outputHintTypes, hm]
      exact newFromHints_stored (hout ▸ m.new_typed seed tc deps _ hgen) hnew
  · rename_i m hm
    rw [except_bind_ok] at h
    obtain ⟨state, _, h⟩ := h
    cases state with
    | none => cases h
    | some s' => cases h

theorem Pass.advanceOnSuccess_stored {p : Pass L}
    (h : p.advanceOnSuccess seed tc prev d succeeded deps = .ok (some (.hint s), files)) :
    s.StoredIn p d files := by
  unfold Pass.advanceOnSuccess at h
  split at h
  · rename_i m s₀ hm
    simp only [except_bind_ok] at h
    obtain ⟨b, hgen, ⟨state, files'⟩, hnew, h⟩ := h
    cases state with
    | none => cases h
    | some s' =>
      cases h
      have hout : p.outputHintTypes = m.outputHintTypes := by rw [Pass.outputHintTypes, hm]
      exact advanceOnSuccessFromHints_stored (hout ▸ m.onSuccess_typed seed tc _ deps _ hgen) hnew
  · rename_i m s₀ hm
    rw [except_bind_ok] at h
    obtain ⟨state, _, h⟩ := h
    cases state with
    | none => cases h
    | some s' => cases h
  · cases h

end Cvise
