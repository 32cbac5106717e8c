import Cvise.Backtracking
import Cvise.ClangIncludeGraph
import Cvise.FileHints
import Cvise.MakefileCuts

namespace Cvise
set_option autoImplicit true

/-- `dict.setdefault(key, []).extend(values)`. -/
def extendKey [DecidableEq κ] (d : Dict κ (List ν)) (e : κ × List ν) : Dict κ (List ν) :=
  setKey d e.1 ((getKey d e.1).getD [] ++ e.2)

namespace MakefilePass

open MakefileParser Regexp

/-- What lies outside of the test case and of the passes. -/
structure Env where
  testCase : RelPath
  /-- `path.exists()`. -/
  pathExists : RelPath → Bool
  /-- `c.isalnum()`. -/
  isAlnum : Char → Bool

section patterns

variable {α : Type}

/-- `pattern.fullmatch(text)`. -/
def fullmatch (text : List α) (r : Regexp α) : Bool := (runs text r 0 []).any (·.1 = text.length)

/-- `pattern.search(text)`. -/
def search (text : List α) (r : Regexp α) : Bool :=
  (List.range (text.length + 1)).any fun i => (matchAt text r i).isSome

def alternatives : List (Regexp α) → Regexp α
  | [] => .notAhead .empty
  | [r] => r
  | r :: rs => .orElse r (alternatives rs)

end patterns

def text (s : String) : Regexp UInt8 := word (encode s.toList)

/-- The text, and then `.*`. -/
def textAndMore (s : String) : Regexp UInt8 := .andThen (text s) (many (· ≠ 10))

/-- `\b`. -/
def Env.wordBoundary (env : Env) : Regexp Char :=
  let isWordAt (s : List Char) (i : Nat) := s[i]?.any fun c => env.isAlnum c || c = '_'
  .look fun s i => (i ≠ 0 && isWordAt s (i - 1)) != isWordAt s i

def Env.argRemovalProgAllowlist (env : Env) : Regexp Char :=
  let whole (s : String) := .andThen env.wordBoundary (.andThen (word s.toList) env.wordBoundary)
  alternatives [whole "CC", word "clang".toList, word "CLANG".toList, whole "CXX",
    word "g++".toList, word "G++".toList, word "gcc".toList, word "GCC".toList]

def twoTokenOptions : Regexp UInt8 :=
  alternatives (["-I", "-iquote", "-isystem", "-o", "-Xclang"].map text)

def removalBlocklist : Regexp UInt8 :=
  alternatives [text "-fallow-pcm-with-compiler-errors", textAndMore "-ferror-limit=",
    textAndMore "-fmax-errors=", text "-fmodule-map-file-home-is-cwd",
    text "-fno-crash-diagnostics", text "-fno-cxx-modules", text "-fno-implicit-module-maps",
    text "-fno-implicit-modules", text "-fpermissive", text "-fsyntax-only", textAndMore "-I",
    text "-no-pedantic", text "--no-pedantic", text "-nostdinc++", text "-nostdlib++",
    text "--no-warnings", textAndMore "-o", text "-pedantic", text "--pedantic",
    text "-pedantic-errors", text "--pedantic-errors", text "-w", textAndMore "-W",
    text "-Xclang=-emit-module", text "-Xclang=-fno-cxx-modules",
    text "-Xclang=-fmodule-map-file-home-is-cwd"]

def twoTokenOptionsRemovalBlocklist : Regexp UInt8 :=
  alternatives [textAndMore "-I ", textAndMore "-iquote ", textAndMore "-isystem ",
    textAndMore "-o ", text "-Xclang -fallow-pcm-with-compiler-errors"]

/-- What the first alternative of `_FILE_PATH_OPTIONS` looks ahead to, at each equals sign. -/
def assignedPaths : Bytes → List Bytes
  | [] => []
  | b :: rest =>
    if b = 61 then rest.takeWhile (· ≠ 10) :: assignedPaths rest else assignedPaths rest

/-- The paths that `_FILE_PATH_OPTIONS.finditer` gives. -/
def filePathOptions : Bytes → List Bytes
  | 45 :: 73 :: rest => rest.takeWhile (· ≠ 10) :: assignedPaths (rest.dropWhile (· ≠ 10))
  | value => assignedPaths value

def possiblePaths (arg : TextWithLoc) : List Bytes := arg.value :: filePathOptions arg.value

/-- The vocabulary: `_Vocab`. -/
def initialVocab : List Bytes :=
  ["@makefile", "@fileref", "remove-arguments-across-all-commands", "remove-target"].map
    fun s => encode s.toList

def makefileVocabId : Nat := 0

def filerefVocabId : Nat := 1

def removeArgumentsVocabId : Nat := 2

def removeTargetVocabId : Nat := 3

/-- The vocabulary, where the paths are in it, and the hints. -/
structure Generated where
  vocab : List Bytes := initialVocab
  pathToVocab : Dict RelPath Nat := []
  hints : List Hint := []

def getVocabId (path : RelPath) (g : Generated) : Nat × Generated :=
  match getKey g.pathToVocab path with
  | some id => (id, g)
  | none => (g.vocab.length, { g with
      vocab := g.vocab ++ [encode (strOfPath path)]
      pathToVocab := setKey g.pathToVocab path g.vocab.length })

def locsToPatches (locs : List SourceLoc) (mkPathId : Nat) : List Patch :=
  locs.map fun loc =>
    { path := some mkPathId, left := some loc.beginPos, right := some loc.endPos }

def addFileLevelHints (pathId : Nat) (g : Generated) : Generated :=
  { g with hints := g.hints ++ [
      { type := some makefileVocabId, patches := [], extra := some pathId },
      { type := some filerefVocabId, patches := [], extra := some pathId }] }

/-- A hint that the token refers to a file of the test case. -/
def addFileref (pathId : Nat) (tok : TextWithLoc) (path : RelPath) (g : Generated) : Generated :=
  let (id, g) := getVocabId path g
  { g with hints := g.hints ++ [{
      type := some filerefVocabId
      patches := locsToPatches [tok.loc] pathId
      extra := some id }] }

/-- The file that a path names, if it is one that exists in the test case. -/
def Env.fileOf (env : Env) (path : RelPath) : Option RelPath :=
  let joined := joinPath env.testCase path
  if env.testCase.isPrefixOf joined ∧ env.pathExists joined then
    some (joined.drop env.testCase.length)
  else none

/-- The first of the paths that is a file other than the test case itself. -/
def Env.firstFile (env : Env) : List Bytes → Except PyErr (Option RelPath)
  | [] => .ok none
  | bytes :: more => do
    match env.fileOf (← pathOfBytes bytes) with
    | some [] => env.firstFile more
    | some path => return some path
    | none => env.firstFile more

def addLineFilerefs (env : Env) (pathId : Nat) (g : Generated) (line : RecipeLine) :
    Except PyErr Generated := do
  let g := match env.fileOf (← pathOfBytes line.program.value) with
    | some path => addFileref pathId line.program path g
    | none => g
  line.args.foldlM (fun g arg => do
    match ← env.firstFile (possiblePaths arg) with
    | some path => return addFileref pathId arg path g
    | none => return g) g

def addFilerefHints (env : Env) (mk : Makefile) (pathId : Nat) (g : Generated) :
    Except PyErr Generated :=
  mk.recipes.foldlM (addLineFilerefs env pathId) g

/-- `_get_removable_arg_groups`, with the option that waits for its second token. -/
def removableArgGroups (twoTokenOption : Option TextWithLoc) :
    List TextWithLoc → List (List TextWithLoc)
  | [] => []
  | arg :: args =>
    match twoTokenOption with
    | some opt =>
      if ¬ fullmatch (opt.value ++ [32] ++ arg.value) twoTokenOptionsRemovalBlocklist then
        [opt, arg] :: removableArgGroups none args
      else removableArgGroups none args
    | none =>
      if fullmatch arg.value twoTokenOptions then removableArgGroups (some arg) args
      else if fullmatch arg.value removalBlocklist then removableArgGroups none args
      else [arg] :: removableArgGroups none args

def getRemovableArgGroups (args : List TextWithLoc) : List (List TextWithLoc) :=
  removableArgGroups none args

/-- A token with the blanks before it. -/
def tokenLocs (tok : TextWithLoc) : List SourceLoc := tok.precedingSpacesLoc.toList ++ [tok.loc]

/-- `b' '.join(a.value for a in arg_group)`. -/
def groupKey (group : List TextWithLoc) : Bytes := [32].intercalate (group.map (·.value))

/-- The removable groups of a command, if it is that of a compiler. -/
def lineArgGroups (env : Env) (line : RecipeLine) : Except PyErr (List (List TextWithLoc)) := do
  if ¬ search (← decodeToken line.program.value) env.argRemovalProgAllowlist then return []
  return getRemovableArgGroups line.args

def argLocs (env : Env) (mk : Makefile) : Except PyErr (Dict Bytes (List SourceLoc)) := do
  let groups ← mk.recipes.mapM (lineArgGroups env)
  return (groups.flatten.map fun group => (groupKey group, group.flatMap tokenLocs)).foldl
    extendKey []

def argRemovalHint (pathId : Nat) (locs : List SourceLoc) : Hint :=
  { type := some removeArgumentsVocabId, patches := locsToPatches locs pathId }

def addArgRemovalHints (env : Env) (mk : Makefile) (pathId : Nat) (g : Generated) :
    Except PyErr Generated := do
  let argLocs ← argLocs env mk
  return { g with hints := g.hints ++ argLocs.map fun e => argRemovalHint pathId e.2 }

/-- The mentions of targets in the header of a rule. -/
def ruleMentions (rule : Rule) : List (RelPath × List SourceLoc) :=
  let locs (path : PathWithLoc) := path.precedingSpacesLoc.toList ++ [path.loc]
  -- Either delete a mention of a target from the rule, or the whole rule if it's the only target.
  (if (rule.targets.map (·.value)).dedup.length = 1 then
    rule.targets.head?.toList.map fun target => (target.value, [rule.loc])
  else rule.targets.map fun target => (target.value, locs target)) ++
    rule.prereqs.map fun prereq => (prereq.value, locs prereq)

/-- The first of the paths that is a target. -/
def firstMentioned (mentions : Dict RelPath (List SourceLoc)) :
    List Bytes → Except PyErr (Option RelPath)
  | [] => .ok none
  | bytes :: more => do
    let path ← pathOfBytes bytes
    if (getKey mentions path).isSome then return some path
    else firstMentioned mentions more

/-- What goes with a mention in an argument: the argument, and an option that it belongs to. -/
def mentionLocs (prevArg : Option TextWithLoc) (arg : TextWithLoc) : List SourceLoc :=
  tokenLocs arg ++ match prevArg with
    | some prev =>
      if fullmatch prev.value twoTokenOptions then prev.loc :: prev.precedingSpacesLoc.toList
      else []
    | none => []

/-- The mentions in the arguments of a command; `prevArg` is the one before the first of them. -/
def addArgMentions (mentions : Dict RelPath (List SourceLoc)) (prevArg : Option TextWithLoc) :
    List TextWithLoc → Except PyErr (Dict RelPath (List SourceLoc))
  | [] => .ok mentions
  | arg :: args => do
    let mentions := match ← firstMentioned mentions (possiblePaths arg) with
      | some path => extendKey mentions (path, mentionLocs prevArg arg)
      | none => mentions
    addArgMentions mentions (some arg) args

def addLineMentions (mentions : Dict RelPath (List SourceLoc)) (line : RecipeLine) :
    Except PyErr (Dict RelPath (List SourceLoc)) := do
  let prog ← pathOfBytes line.program.value
  -- The whole command has to be deleted if the program name is a known target itself.
  if (getKey mentions prog).isSome then return extendKey mentions (prog, [line.loc])
  else addArgMentions mentions none line.args

def targetMentions (mk : Makefile) : Except PyErr (Dict RelPath (List SourceLoc)) :=
  let mentions := (mk.rules.flatMap ruleMentions).foldl extendKey []
  mk.recipes.foldlM addLineMentions
    (mentions.filter fun e => e.1 ∉ mk.builtinTargets ++ mk.phonyTargets)

def addTargetRemovalHints (mk : Makefile) (pathId : Nat) (g : Generated) :
    Except PyErr Generated := do
  let mentions ← targetMentions mk
  return { g with hints := g.hints ++ mentions.map fun e =>
    { type := some removeTargetVocabId, patches := locsToPatches e.2 pathId } }

/-- The hints for one makefile. -/
def addMakefile (env : Env) (testCase : TestCase) (g : Generated) (path : RelPath) :
    Except PyErr Generated := do
  let (pathId, g) := getVocabId path g
  let g := addFileLevelHints pathId g
  let mk ← parse (← testCase.readBytes path)
  let g ← addFilerefHints env mk pathId g
  let g ← addArgRemovalHints env mk pathId g
  addTargetRemovalHints mk pathId g

def generateHints (env : Env) (lib : GlobLibrary) (testCase : TestCase)
    (claimFiles claimedByOthersFiles : List Str) : Except PyErr HintBundle := do
  let g ← (filterFilesByPatterns lib testCase claimFiles claimedByOthersFiles).foldlM
    (addMakefile env testCase) {}
  return { hints := g.hints, vocabulary := g.vocab }

end MakefilePass

end Cvise
