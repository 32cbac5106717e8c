import Cvise.MakefilePass
import Cvise.NestedBlocks

namespace Cvise
set_option autoImplicit true

namespace ClangModuleMapPass

open MakefileParser Regexp

structure HeaderDecl where
  loc : SourceLoc
  filePath : Str
deriving DecidableEq

structure UseDecl where
  loc : SourceLoc
  id : Str
deriving DecidableEq

structure ModuleDecl where
  loc : SourceLoc
  /-- The location of the line that opens the module. -/
  titleLoc : SourceLoc
  closeBraceLoc : SourceLoc
  id : Str
  headers : List HeaderDecl := []
  uses : List UseDecl := []
  submodules : List ModuleDecl := []

structure ModuleMapFile where
  modules : List ModuleDecl
  unclassifiedLines : List SourceLoc

/-- `\w` in a regular expression over bytes. -/
def isWordByte (b : UInt8) : Bool :=
  (48 ≤ b && b ≤ 57) || (65 ≤ b && b ≤ 90) || (97 ≤ b && b ≤ 122) || b = 95

/-- `\b` in a regular expression over bytes. -/
def wordBoundary : Regexp UInt8 :=
  .look fun s i => (i ≠ 0 && s[i - 1]?.any isWordByte) != s[i]?.any isWordByte

def sequence (rs : List (Regexp UInt8)) : Regexp UInt8 := rs.foldr .andThen .empty

/-- `.*`. -/
def anything : Regexp UInt8 := many (· ≠ 10)

def spaces : Regexp UInt8 := atLeastOne isSpaceByte

/-- `.*\bmodule\s+(\S+).*{\s*`, with `{` as its code. -/
def moduleLine : Regexp UInt8 :=
  sequence [anything, wordBoundary, MakefilePass.text "module", spaces,
    .group 1 (atLeastOne fun b => !isSpaceByte b), anything, lit 123, many isSpaceByte]

/-- `.*\bheader\s+"([^\s"]+)".*`. -/
def headerLine : Regexp UInt8 :=
  sequence [anything, wordBoundary, MakefilePass.text "header", spaces, lit 34,
    .group 1 (atLeastOne fun b => !isSpaceByte b && b ≠ 34), lit 34, anything]

/-- `.*\buse\s+(\S+).*`. -/
def useLine : Regexp UInt8 :=
  sequence [anything, wordBoundary, MakefilePass.text "use", spaces,
    .group 1 (atLeastOne fun b => !isSpaceByte b), anything]

/-- `m.group(1).decode()` of a match at the begin of the line. -/
def matchedText (r : Regexp UInt8) (line : Bytes) : Except PyErr (Option Str) :=
  match matchAt line r 0 with
  | some m => do return some (← decodeToken (m.group line 1))
  | none => .ok none

/-- `s.strip('"')`. -/
def stripQuotes (s : Str) : Str :=
  ((s.dropWhile (· = '"')).reverse.dropWhile (· = '"')).reverse

/-- `line.strip() == b'}'`. -/
def isCloseBrace (line : Bytes) : Bool :=
  ((line.dropWhile isSpaceByte).reverse.dropWhile isSpaceByte).reverse = [125]

inductive LineKind where
  | module (id : Str)
  | header (filePath : Str)
  | use (id : Str)
  | closeBrace
  | unclassified
deriving DecidableEq

/-- The conditions of the branches of the main loop; `inside` is that a module is open. -/
def lineKind (inside : Bool) (line : Bytes) : Except PyErr LineKind := do
  match ← matchedText moduleLine line with
  | some id => return .module (stripQuotes id)
  | none =>
    if ¬ inside then return .unclassified
    match ← matchedText headerLine line with
    | some filePath => return .header filePath
    | none =>
      match ← matchedText useLine line with
      | some id => return .use (stripQuotes id)
      | none => return if isCloseBrace line then .closeBrace else .unclassified

/-- The modules that are open, the innermost one first, and what has been read at the top level. A
module is filed under its parent when it is closed. -/
structure ParseState where
  stack : List ModuleDecl := []
  modules : List ModuleDecl := []
  unclassifiedLines : List SourceLoc := []

namespace ParseState

/-- Expands each active module to cover the current line. -/
def stretchTo (st : ParseState) (endPos : Nat) : ParseState :=
  { st with stack := st.stack.map fun m => { m with loc := ⟨m.loc.beginPos, endPos⟩ } }

def inTop (f : ModuleDecl → ModuleDecl) (st : ParseState) : ParseState :=
  { st with stack := st.stack.modifyHead f }

/-- `stack.pop()`. -/
def pop : ParseState → ParseState
  | ⟨[], modules, unclassified⟩ => ⟨[], modules, unclassified⟩
  | ⟨[top], modules, unclassified⟩ => ⟨[], modules ++ [top], unclassified⟩
  | ⟨top :: parent :: below, modules, unclassified⟩ =>
    ⟨{ parent with submodules := parent.submodules ++ [top] } :: below, modules, unclassified⟩

/-- The modules of the open ones, each filed under its parent. -/
def filed (children : List ModuleDecl) : List ModuleDecl → List ModuleDecl
  | [] => children
  | top :: below => filed [{ top with submodules := top.submodules ++ children }] below

/-- The file at its end, where modules may still be open. -/
def finish (st : ParseState) : ModuleMapFile where
  modules := st.modules ++ filed [] st.stack
  unclassifiedLines := st.unclassifiedLines

end ParseState

/-- One line of the main loop. -/
def parseLine (st : ParseState) (line : TextWithLoc) : Except PyErr ParseState := do
  let st := st.stretchTo line.loc.endPos
  match ← lineKind (!st.stack.isEmpty) line.value with
  | .module id =>
    let mod := { loc := line.loc, titleLoc := line.loc, closeBraceLoc := line.loc, id := id }
    return { st with stack := mod :: st.stack }
  | .header filePath =>
    return st.inTop fun m => { m with headers := m.headers ++ [⟨line.loc, filePath⟩] }
  | .use id => return st.inTop fun m => { m with uses := m.uses ++ [⟨line.loc, id⟩] }
  | .closeBrace => return (st.inTop fun m => { m with closeBraceLoc := line.loc }).pop
  | .unclassified =>
    return { st with unclassifiedLines := st.unclassifiedLines ++ [line.loc] }

/-- `_parse_file`, of the contents of the file. -/
def parseFile (data : Bytes) : Except PyErr ModuleMapFile := do
  let st ← (locateLines 0 (byteLines data)).foldlM parseLine {}
  return st.finish

/-- The vocabulary: `_Vocab`. -/
def initialVocab : List Bytes :=
  ["@fileref", "make-header-non-modular", "delete-use-decl", "delete-empty-submodule",
    "inline-submodule-contents", "delete-line"].map fun s => encode s.toList

/-- A hint to delete some ranges of a file. -/
def deletionHint (type pathId : Nat) (locs : List SourceLoc) : Hint :=
  { type := some type, patches := MakefilePass.locsToPatches locs pathId }

def getVocabId (path : RelPath) (g : MakefilePass.Generated) : Nat × MakefilePass.Generated :=
  MakefilePass.getVocabId path g

/-- The hints of a module but for those of its submodules. -/
def ownHints (env : MakefilePass.Env) (pathId : Nat) (toplevel : Bool) (mod : ModuleDecl)
    (g : MakefilePass.Generated) : MakefilePass.Generated :=
  let isEmpty := mod.headers.isEmpty && mod.uses.isEmpty && mod.submodules.isEmpty
  let g := if ¬ toplevel ∧ isEmpty then
      { g with hints := g.hints ++ [deletionHint 3 pathId [mod.loc]] }
    else g
  let g := if ¬ toplevel ∧ ¬ isEmpty then
      { g with hints := g.hints ++ [deletionHint 4 pathId [mod.titleLoc, mod.closeBraceLoc]] }
    else g
  let g := mod.headers.foldl (fun g header =>
    let path := pathOfStr header.filePath
    let g := if env.pathExists (joinPath env.testCase path) then
        let (headerPathId, g) := getVocabId path g
        { g with hints := g.hints ++
          [{ deletionHint 0 pathId [header.loc] with extra := some headerPathId }] }
      else g
    { g with hints := g.hints ++ [deletionHint 1 pathId [header.loc]] }) g
  { g with hints := g.hints ++ mod.uses.map fun use => deletionHint 2 pathId [use.loc] }

mutual

def createHintsForModule (env : MakefilePass.Env) (pathId : Nat) (toplevel : Bool) :
    ModuleDecl → MakefilePass.Generated → MakefilePass.Generated
  | ⟨loc, titleLoc, closeBraceLoc, id, headers, uses, submodules⟩, g =>
    createHintsForModules env pathId false submodules (ownHints env pathId toplevel
      ⟨loc, titleLoc, closeBraceLoc, id, headers, uses, submodules⟩ g)

def createHintsForModules (env : MakefilePass.Env) (pathId : Nat) (toplevel : Bool) :
    List ModuleDecl → MakefilePass.Generated → MakefilePass.Generated
  | [], g => g
  | mod :: mods, g => createHintsForModules env pathId toplevel mods
      (createHintsForModule env pathId toplevel mod g)

end

def createHintsForUnclassifiedLines (locs : List SourceLoc) (pathId : Nat)
    (g : MakefilePass.Generated) : MakefilePass.Generated :=
  { g with hints := g.hints ++ locs.map fun loc => deletionHint 5 pathId [loc] }

def addFile (env : MakefilePass.Env) (testCase : TestCase) (g : MakefilePass.Generated)
    (path : RelPath) : Except PyErr MakefilePass.Generated := do
  let file ← parseFile (← testCase.readBytes path)
  let (pathId, g) := getVocabId path g
  return createHintsForUnclassifiedLines file.unclassifiedLines pathId
    (createHintsForModules env pathId true file.modules g)

def generateHints (env : MakefilePass.Env) (lib : GlobLibrary) (testCase : TestCase)
    (claimFiles claimedByOthersFiles : List Str) : Except PyErr HintBundle := do
  let g ← (filterFilesByPatterns lib testCase claimFiles claimedByOthersFiles).foldlM
    (addFile env testCase) { vocab := initialVocab }
  return { hints := g.hints, vocabulary := g.vocab }

end ClangModuleMapPass

end Cvise
