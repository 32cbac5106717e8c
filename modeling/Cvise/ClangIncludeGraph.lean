import Cvise.Dict
import Cvise.MakefileParser

namespace Cvise
set_option autoImplicit true

/-- A `Patch` with the range as the tool prints it: the integers can have any sign. -/
structure RangePatch where
  left : Option Int := none
  right : Option Int := none
  path : Option Nat := none
deriving DecidableEq

structure GraphHint where
  type : Option Nat := none
  patches : List RangePatch := []
  extra : Option Nat := none
deriving DecidableEq

structure GraphBundle where
  hints : List GraphHint
  vocabulary : List Bytes := []
deriving DecidableEq

/-- `data.decode()`. -/
def decodeToken (data : Bytes) : Except PyErr Str :=
  match decode data with
  | some s => .ok s
  | none => .error .unicodeDecodeError

/-- The test case and what lies outside the passes: the disk, the tool, and `str` and `int`. -/
structure GraphEnv where
  testCase : RelPath
  /-- `path.resolve()`. -/
  resolve : RelPath → Except PyErr RelPath
  readFile : RelPath → Except PyErr Bytes
  clangIncludeGraph : Option Str
  /-- The output of a command that runs in the test case. -/
  checkOutput : List Str → Except PyErr Bytes
  /-- `int(s)`. -/
  int : Str → Except PyErr Int
  /-- `c.isalnum()`. -/
  isAlnum : Char → Bool

def initParallelization : Nat := 10

/-- `_HINT_VOCAB`. -/
def graphHintVocab : List Bytes := ["@fileref", "@c-include"].map fun s => encode s.toList

def filerefVocabId : Nat := 0

def cIncludeVocabId : Nat := 1

/-- `_MULTIPLEX_PASS_HINT_TEMPLATE`. -/
def multiplexPassHint (modulo : Nat) : Bytes :=
  encode ("@clang-include-graph-".toList ++ Nat.toDigits 10 modulo)

/-- `path.is_absolute()`. -/
def isAbsolute : RelPath → Bool
  | ('/' :: _) :: _ => true
  | _ => false

/-- `path / other`. -/
def joinPath (path other : RelPath) : RelPath := if isAbsolute other then other else path ++ other

/-- `_REMOVE_ARGS.fullmatch(arg)`. -/
def isRemovedArg (arg : Str) : Bool :=
  arg = "$(EXTRA_CFLAGS)".toList ||
    ["-fmodule-map-file=", "-fmodule-file=", "-Xclang=-fmodule-map-file=",
      "-Xclang=-fmodule-file="].any fun start =>
        start.toList.isPrefixOf arg && !(arg.drop start.toList.length).contains '\n'

/-- One argument of `_filter_args`. -/
def filterArg (filtered : List Str) (cur : Str) : List Str :=
  if ¬ isRemovedArg cur then filtered ++ [cur]
  else if filtered.getLast? = some "-Xclang".toList then filtered.dropLast
  else filtered

def filterArgs (args : List MakefileParser.TextWithLoc) : Except PyErr (List Str) :=
  args.foldlM (fun filtered arg => do return filterArg filtered (← decodeToken arg.value)) []

def getKthModuloN (commands : List α) (k n : Nat) : List α :=
  (commands.zipIdx.filter fun c => c.2 % n = k).map Prod.fst

def splitByNullChar : Bytes → List Bytes
  | [] => []
  | b :: rest =>
    if b = 0 then [] :: splitByNullChar rest
    else match splitByNullChar rest with
      | [] => [[b]]
      | tok :: toks => (b :: tok) :: toks

/-- What a multiplex pass has made so far: its vocabulary, where the paths are in it, and its set
of hints. -/
structure GraphChunk where
  vocab : List Bytes
  pathToVocab : Dict RelPath Nat := []
  hints : List GraphHint := []

namespace GraphEnv

/-- Whether a character of the text is a word character for regular expressions. -/
def isWordAt (env : GraphEnv) (text : Str) (i : Nat) : Bool :=
  text[i]?.any fun c => env.isAlnum c || c = '_'

/-- `\b` at a position. -/
def wordBoundary (env : GraphEnv) (text : Str) (i : Nat) : Bool :=
  (i ≠ 0 && env.isWordAt text (i - 1)) != env.isWordAt text i

/-- `_RECOGNIZED_PROGRAMS.search(prog)`. -/
def recognizesProgram (env : GraphEnv) (prog : Str) : Bool :=
  (List.range (prog.length + 1)).any fun i =>
    (["clang", "CLANG", "g++", "G++", "gcc", "GCC"].any fun w =>
      w.toList.isPrefixOf (prog.drop i)) ||
    ["CC", "CXX"].any fun w =>
      env.wordBoundary prog i && w.toList.isPrefixOf (prog.drop i) &&
        env.wordBoundary prog (i + w.toList.length)

/-- The makefile that a hint reports. -/
def makefileOf (env : GraphEnv) (bundle : HintBundle) (hint : Hint) : Except PyErr RelPath := do
  let some type := hint.type | throw .assertionError
  if (← bundle.word type) ≠ encode "@makefile".toList then throw .assertionError
  let some extra := hint.extra | throw .assertionError
  return joinPath env.testCase (← pathOfBytes (← bundle.word extra))

def getMakefilesFromHints (env : GraphEnv) (dependeeHints : List HintBundle) :
    Except PyErr (List RelPath) := do
  let found ← dependeeHints.mapM fun bundle => bundle.hints.mapM (env.makefileOf bundle)
  return found.flatten.dedup

/-- The command of a recipe line, if it starts a compiler. -/
def commandOf (env : GraphEnv) (line : MakefileParser.RecipeLine) :
    Except PyErr (Option (List Str)) := do
  let prog ← decodeToken line.program.value
  if env.recognizesProgram prog then return some (prog :: (← filterArgs line.args))
  else return none

def getAllMakefileCommands (env : GraphEnv) (makefiles : List RelPath) :
    Except PyErr (List (List Str)) := do
  let found ← (makefiles.insertionSort (· ≤ ·)).mapM fun mkPath => do
    let mk ← MakefileParser.parse (← env.readFile mkPath)
    (mk.rules.flatMap (·.recipe)).mapM env.commandOf
  return found.flatten.reduceOption

/-- The part of `_get_vocab_id` before the vocabulary: the path from the test case on, if it leads
into it. -/
def locate (env : GraphEnv) (path : RelPath) : Except PyErr (Option RelPath) := do
  let testCase ← env.resolve env.testCase
  let path ← env.resolve (joinPath testCase path)
  if ¬ testCase.isPrefixOf path ∨ path = testCase then return none
  else return some (path.drop testCase.length)

def getVocabId (env : GraphEnv) (path : RelPath) (chunk : GraphChunk) :
    Except PyErr (Option Nat × GraphChunk) := do
  match ← env.locate path with
  | none => return (none, chunk)
  | some relPath =>
    match getKey chunk.pathToVocab relPath with
    | some id => return (some id, chunk)
    | none => return (some chunk.vocab.length,
        { chunk with
          vocab := chunk.vocab ++ [encode (strOfPath relPath)]
          pathToVocab := setKey chunk.pathToVocab relPath chunk.vocab.length })

/-- The loop body of a multiplex pass, from the four tokens on. -/
def addInclusion (env : GraphEnv) (chunk : GraphChunk) (fromPath : Str) (locBegin locEnd : Int)
    (toPath : Str) : Except PyErr GraphChunk := do
  if fromPath = [] ∨ toPath = [] then return chunk
  let (toNode, chunk) ← env.getVocabId (pathOfStr toPath) chunk
  match toNode with
  | none => return chunk
  | some toNode =>
    let (fromNode, chunk) ← env.getVocabId (pathOfStr fromPath) chunk
    let patches := match fromNode with
      | none => []
      | some fromNode => [{ left := some locBegin, right := some locEnd, path := some fromNode }]
    let hint := { type := some 0, patches := patches, extra := some toNode }
    return { chunk with hints := chunk.hints.insert hint }

/-- What the loop does before it runs out of tokens: those that are left it still reads. -/
def readTruncated (env : GraphEnv) (toks : List Bytes) : Except PyErr Unit :=
  match toks with
  | [] => return
  | fromPath :: ints => do
    let _ ← decodeToken fromPath
    let _ ← ints.mapM fun tok => do env.int (← decodeToken tok)
    return

/-- The loop over the tokens of an output. -/
def readQuadruples (env : GraphEnv) (chunk : GraphChunk) : List Bytes → Except PyErr GraphChunk
  | fromPath :: locBegin :: locEnd :: toPath :: toks => do
    let fromPath ← decodeToken fromPath
    let locBegin ← env.int (← decodeToken locBegin)
    let locEnd ← env.int (← decodeToken locEnd)
    let toPath ← decodeToken toPath
    let chunk ← env.addInclusion chunk fromPath locBegin locEnd toPath
    env.readQuadruples chunk toks
  | toks => do
    env.readTruncated toks
    return chunk

/-- One command of a multiplex pass: the tool's output goes into its vocabulary and hints. -/
def runCommand (env : GraphEnv) (toolPath : Str) (chunk : GraphChunk) (cmd : List Str) :
    Except PyErr GraphChunk := do
  let stdout ← env.checkOutput (toolPath :: cmd)
  env.readQuadruples chunk (splitByNullChar stdout)

/-- `generate_hints` of the pass for the commands with a remainder modulo a number. -/
def chunkHints (env : GraphEnv) (modulo n : Nat) (dependeeHints : List HintBundle) :
    Except PyErr GraphBundle := do
  let makefiles ← env.getMakefilesFromHints dependeeHints
  let allCommands ← env.getAllMakefileCommands makefiles
  let commands := getKthModuloN allCommands modulo n
  match env.clangIncludeGraph with
  | none => throw .assertionError
  | some toolPath =>
    if toolPath = [] then throw .assertionError
    let chunk ← commands.foldlM (env.runCommand toolPath) { vocab := [multiplexPassHint modulo] }
    return ⟨chunk.hints, chunk.vocab⟩

/-- `_ClangIncludeGraphMultiplexPass.generate_hints`. -/
def multiplexHints (env : GraphEnv) (modulo : Nat) (dependeeHints : List HintBundle) :
    Except PyErr GraphBundle :=
  env.chunkHints modulo initParallelization dependeeHints

end GraphEnv

/-- `bundle.vocabulary[i]`. -/
def GraphBundle.word (bundle : GraphBundle) (i : Nat) : Except PyErr Bytes :=
  match bundle.vocabulary[i]? with
  | some s => .ok s
  | none => .error .indexError

/-- `text_to_vocab`: of equal words the last one counts. -/
def textToVocab (vocab : List Bytes) : Dict Bytes Nat :=
  vocab.zipIdx.foldl (fun ids e => setKey ids e.1 e.2) []

/-- `text_to_vocab[bundle.vocabulary[id]]`. -/
def remapId (bundle : GraphBundle) (ids : Dict Bytes Nat) (id : Nat) : Except PyErr Nat := do
  lookupKey ids (← bundle.word id)

def remapPath (bundle : GraphBundle) (ids : Dict Bytes Nat) :
    Option Nat → Except PyErr (Option Nat)
  | none => return none
  | some id => return some (← remapId bundle ids id)

def remapPathIds (hint : GraphHint) (bundle : GraphBundle) (ids : Dict Bytes Nat) :
    Except PyErr GraphHint := do
  let some extra := hint.extra | throw .assertionError
  let patches ← hint.patches.mapM fun p => do
    return { left := p.left, right := p.right, path := ← remapPath bundle ids p.path }
  return { hint with patches := patches, extra := some (← remapId bundle ids extra) }

/-- The loop body of `generate_hints` of the main pass. -/
def addRemapped (ids : Dict Bytes Nat) (bundle : GraphBundle) (hints : List GraphHint)
    (hint : GraphHint) : Except PyErr (List GraphHint) := do
  let newHint ← remapPathIds hint bundle ids
  return [filerefVocabId, cIncludeVocabId].foldl
    (fun hints tp => hints.insert { newHint with type := some tp }) hints

/-- `vocab` of the main pass. -/
def mergedVocab (dependeeHints : List GraphBundle) : List Bytes :=
  graphHintVocab ++ ((dependeeHints.flatMap (·.vocabulary)).dedup.insertionSort (· ≤ ·))

/-- `ClangIncludeGraphPass.generate_hints`. -/
def mergeGraphHints (dependeeHints : List GraphBundle) : Except PyErr GraphBundle := do
  let vocab := mergedVocab dependeeHints
  let ids := textToVocab vocab
  let hints ← dependeeHints.foldlM
    (fun hints bundle => bundle.hints.foldlM (addRemapped ids bundle) hints) []
  return ⟨hints, vocab⟩

end Cvise
