import Cvise.Dict

namespace Cvise
set_option autoImplicit true

/-- `AbstractPass.Option`. -/
inductive PassOption where
  | slow
  | windows
deriving DecidableEq

def PassOption.ofStr (s : Str) : Option PassOption :=
  if s = "slow".toList then some .slow
  else if s = "windows".toList then some .windows
  else none

structure PassCategory where
  name : Str
  logTitle : Str
  initial : Bool
  interleaving : Bool
  once : Bool
deriving DecidableEq

def passCategories : List PassCategory :=
  [⟨"interleaving_first".toList, "INITIAL PASSES (interleaving)".toList, true, true, true⟩,
    ⟨"first".toList, "INITIAL PASSES".toList, true, false, true⟩,
    ⟨"interleaving".toList, "INTERLEAVING PASSES".toList, false, true, false⟩,
    ⟨"main".toList, "MAIN PASSES".toList, false, false, false⟩,
    ⟨"last".toList, "CLEANUP PASSES".toList, false, false, true⟩]

/-- `CVise.pass_name_mapping`, with the names of the classes. -/
def passNameMapping : Dict Str Str :=
  [("balanced", "BalancedPass"), ("blank", "BlankPass"), ("clang", "ClangPass"),
    ("clangbinarysearch", "ClangBinarySearchPass"), ("clanghints", "ClangHintsPass"),
    ("clangincludegraph", "ClangIncludeGraphPass"), ("clangmodulemap", "ClangModuleMapPass"),
    ("clex", "ClexPass"), ("clexhints", "ClexHintsPass"), ("comments", "CommentsPass"),
    ("gcda-binary", "GCDABinaryPass"), ("ifs", "IfPass"),
    ("includeincludes", "IncludeIncludesPass"), ("includes", "IncludesPass"),
    ("indent", "IndentPass"), ("inlineincludes", "InlineIncludesPass"), ("ints", "IntsPass"),
    ("line_markers", "LineMarkersPass"), ("lines", "LinesPass"), ("makefile", "MakefilePass"),
    ("peep", "PeepPass"), ("rmunusedfiles", "RmUnusedFilesPass"), ("special", "SpecialPass"),
    ("ternary", "TernaryPass"), ("treesitter", "TreeSitterPass"),
    ("unifdef", "UnIfDefPass")].map fun e => (e.1.toList, e.2.toList)

/-- An entry of a category in the configuration: the keys that are read of it. -/
structure PassDict where
  pass : Option Str := none
  arg : Option Str := none
  includeOptions : Option (List Str) := none
  excludeOptions : Option (List Str) := none
  c : Bool := false
  renamingPass : Bool := false
  maxTransforms : Option Int := none
  strategy : Option Str := none
  iterateStds : Option Bool := none
  claimFiles : List Str := []
deriving DecidableEq

inductive PassGroupError where
  | passOption (opt : Str)
  | invalidPass (category : Str)
  | unknownPass (name : Str)
  | maxTransforms
  | noCategory
deriving DecidableEq

def PassGroupError.message : PassGroupError → Str
  | .passOption opt => opt
  | .invalidPass category => "Invalid pass in category ".toList ++ category
  | .unknownPass name => "Unknown pass ".toList ++ name
  | .maxTransforms => "max-transforms not available for passes in interleaving categories".toList
  | .noCategory => "At least one pass category must be configured: ".toList ++
      ", ".toList.intercalate (passCategories.map (·.name))

/-- What the command line gives to `parse_pass_group_dict`. The arguments that every pass gets
alike are left out. -/
structure PassGroupOptions where
  passOptions : List PassOption := []
  removePass : Option Str := none
  notC : Bool := false
  withRenaming : Bool := false

/-- A pass, by what it is constructed from. -/
structure PassInstance where
  className : Str
  arg : Option Str
  maxTransforms : Option Int
  strategy : Option Str
  iterateStds : Option Bool
  claimFiles : List Str
  claimedByOthersFiles : List Str
deriving DecidableEq

def PassInstance.repr (p : PassInstance) : Str :=
  let name := match p.arg with
    | some arg => p.className ++ "::".toList ++ arg
    | none => p.className
  match p.maxTransforms with
  | some n => name ++ " (".toList ++ (toString n).toList ++ " T)".toList
  | none => name

/-- The configuration: the entries of each category. -/
abbrev PassGroupDict := Dict Str (List PassDict)

def PassGroupDict.entries (group : PassGroupDict) (category : PassCategory) : List PassDict :=
  (getKey group category.name).getD []

def parseOptions (options : List Str) : Except PassGroupError (List PassOption) :=
  options.mapM fun opt =>
    match PassOption.ofStr opt with
    | some o => .ok o
    | none => .error (.passOption opt)

/-- Whether the options ask for the entry; `exclude` is not looked at when `include` fails. -/
def includePass (d : PassDict) (options : List PassOption) : Except PassGroupError Bool := do
  let included ← match d.includeOptions with
    | none => pure true
    | some opts => do return (← parseOptions opts).any (· ∈ options)
  if !included then return false
  match d.excludeOptions with
  | none => return true
  | some opts => return !(← parseOptions opts).any (· ∈ options)

/-- `set(remove_pass.split(','))`, and the empty set without the option. -/
def PassGroupOptions.removedPasses (opts : PassGroupOptions) : List Str :=
  match opts.removePass with
  | none => []
  | some [] => []
  | some names => names.splitOn ','

/-- The patterns of all entries but one. -/
def claimedByOthersFiles (group : PassGroupDict) (category : PassCategory) (passId : Nat) :
    List Str :=
  passCategories.flatMap fun cat =>
    (group.entries cat).zipIdx.flatMap fun e =>
      if cat.name ≠ category.name ∨ e.2 ≠ passId then e.1.claimFiles else []

/-- The constructor call. -/
def passInstance (group : PassGroupDict) (category : PassCategory) (passId : Nat) (d : PassDict)
    (className : Str) : PassInstance where
  className := className
  arg := d.arg
  maxTransforms := d.maxTransforms
  strategy := d.strategy
  iterateStds := d.iterateStds
  claimFiles := d.claimFiles
  claimedByOthersFiles := claimedByOthersFiles group category passId

/-- One entry: no pass if the options say so. -/
def parseEntry (group : PassGroupDict) (opts : PassGroupOptions) (category : PassCategory)
    (e : PassDict × Nat) : Except PassGroupError (Option PassInstance) := do
  let d := e.1
  if !(← includePass d opts.passOptions) then return none
  let some name := d.pass | throw (.invalidPass category.name)
  let some className := getKey passNameMapping name | throw (.unknownPass name)
  if d.maxTransforms.isSome && category.interleaving then throw .maxTransforms
  let p := passInstance group category e.2 d className
  if p.repr ∈ opts.removedPasses then return none
  if opts.notC && d.c then return none
  if !opts.withRenaming && d.renamingPass then return none
  return some p

/-- The passes of a category that is configured. -/
def parseCategory (group : PassGroupDict) (opts : PassGroupOptions) (category : PassCategory) :
    Except PassGroupError (List (Str × List PassInstance)) :=
  match getKey group category.name with
  | none => .ok []
  | some entries => do
    let passes ← entries.zipIdx.mapM (parseEntry group opts category)
    return [(category.name, passes.filterMap id)]

def parsePassGroupDict (group : PassGroupDict) (opts : PassGroupOptions) :
    Except PassGroupError (Dict Str (List PassInstance)) := do
  let categories ← passCategories.mapM (parseCategory group opts)
  if categories.flatten.isEmpty then throw .noCategory
  return categories.flatten

variable {group : PassGroupDict} {opts : PassGroupOptions} {category : PassCategory}

/-- A pass is constructed from its entry, whatever the options let pass. -/
theorem parseEntry_some (h : parseEntry group opts category e = .ok (some p)) :
    ∃ className, p = passInstance group category e.2 e.1 className := by
  simp only [parseEntry, except_bind_ok] at h
  obtain ⟨included, -, h⟩ := h
  cases included with
  | false => cases h
  | true =>
    rw [Bool.not_true, if_neg Bool.false_ne_true] at h
    split at h
    · split at h
      · rename_i className _
        refine ⟨className, ?_⟩
        split at h
        · cases h
        · split at h
          · cases h
          · split at h
            · cases h
            · split at h
              · cases h
              · exact (Option.some.inj (Except.ok.inj h)).symm
      · cases h
    · cases h

theorem parseCategory_mem (h : parseCategory group opts category = .ok r)
    (hmem : (name, passes) ∈ r) (hp : p ∈ passes) : name = category.name ∧ ∃ passId d className,
      (group.entries category)[passId]? = some d ∧
        p = passInstance group category passId d className := by
  rw [parseCategory] at h
  cases hentries : getKey group category.name with
  | none =>
    rw [hentries] at h
    cases h
    cases hmem
  | some entries =>
    rw [hentries, except_bind_ok] at h
    obtain ⟨parsed, hparsed, h⟩ := h
    cases h
    obtain ⟨rfl, rfl⟩ := Prod.mk.inj (List.mem_singleton.1 hmem)
    obtain ⟨o, ho, rfl⟩ := List.mem_filterMap.1 hp
    obtain ⟨⟨d, passId⟩, he, hparse⟩ := (except_mapM_mem hparsed).1 ho
    obtain ⟨className, rfl⟩ := parseEntry_some hparse
    refine ⟨rfl, passId, d, className, ?_, rfl⟩
    rw [PassGroupDict.entries, hentries, Option.getD_some]
    exact List.mem_zipIdx_iff_getElem?.1 he

theorem parsePassGroupDict_mem {result : Dict Str (List PassInstance)}
    (h : parsePassGroupDict group opts = .ok result) (hmem : (name, passes) ∈ result)
    (hp : p ∈ passes) : ∃ category ∈ passCategories, name = category.name ∧
      ∃ passId d className, (group.entries category)[passId]? = some d ∧
        p = passInstance group category passId d className := by
  rw [parsePassGroupDict, except_bind_ok] at h
  obtain ⟨categories, hcategories, h⟩ := h
  split at h
  · cases h
  · cases h
    obtain ⟨r, hr, hmem⟩ := List.mem_flatten.1 hmem
    obtain ⟨category, hcategory, hparse⟩ := (except_mapM_mem hcategories).1 hr
    exact ⟨category, hcategory, parseCategory_mem hparse hmem hp⟩

theorem mem_claimedByOthersFiles : pattern ∈ claimedByOthersFiles group category passId ↔
    ∃ cat ∈ passCategories, ∃ i d, (group.entries cat)[i]? = some d ∧
      (cat.name ≠ category.name ∨ i ≠ passId) ∧ pattern ∈ d.claimFiles := by
  simp only [claimedByOthersFiles, List.mem_flatMap, Prod.exists, List.mem_zipIdx_iff_getElem?]
  constructor
  · rintro ⟨cat, hcat, d, i, hd, hpattern⟩
    split at hpattern
    · rename_i hother
      exact ⟨cat, hcat, i, d, hd, hother, hpattern⟩
    · cases hpattern
  · rintro ⟨cat, hcat, i, d, hd, hother, hpattern⟩
    refine ⟨cat, hcat, d, i, hd, ?_⟩
    rw [if_pos hother]
    exact hpattern

end Cvise
