import Cvise.Brackets
import Cvise.Hint
import Cvise.Pattern

namespace Cvise
set_option autoImplicit true

inductive BalancedExpr where
  | angles
  | curlies
  | parens
  | squares
deriving DecidableEq

def BalancedExpr.openCh : BalancedExpr → UInt8
  | angles => 60
  | curlies => 123
  | parens => 40
  | squares => 91

def BalancedExpr.closeCh : BalancedExpr → UInt8
  | angles => 62
  | curlies => 125
  | parens => 41
  | squares => 93

inductive Deletion where
  | all
  | only
  | inside
deriving DecidableEq

namespace BalancedPass

structure Config where
  search : BalancedExpr
  toDelete : Deletion
  replacement : Bytes := []
  searchPrefix : Option (Pattern UInt8) := none

/-- An equals sign and the blanks behind it. -/
def equalsPrefix : Pattern UInt8 := .seq (.sat (· = 61)) (.star (.sat isSpaceByte))

/-- The arguments that `__get_config` knows. -/
def configs : List (String × Config) :=
  [("square-inside", { search := .squares, toDelete := .inside }),
    ("angles-inside", { search := .angles, toDelete := .inside }),
    ("parens-inside", { search := .parens, toDelete := .inside }),
    ("curly-inside", { search := .curlies, toDelete := .inside }),
    ("square", { search := .squares, toDelete := .all }),
    ("angles", { search := .angles, toDelete := .all }),
    ("parens-to-zero", { search := .parens, toDelete := .all, replacement := [48] }),
    ("parens", { search := .parens, toDelete := .all }),
    ("curly", { search := .curlies, toDelete := .all }),
    ("curly2", { search := .curlies, toDelete := .all, replacement := [59] }),
    ("curly3", { search := .curlies, toDelete := .all, searchPrefix := some equalsPrefix }),
    ("parens-only", { search := .parens, toDelete := .only }),
    ("curly-only", { search := .curlies, toDelete := .only }),
    ("angles-only", { search := .angles, toDelete := .only }),
    ("square-only", { search := .squares, toDelete := .only })]

/-- `__get_config`. An unknown argument raises. -/
def getConfig (arg : String) : Option Config := (configs.find? (·.1 = arg)).map Prod.snd

/-- The spans that `re.finditer` gives, for a pattern that does not match the empty string. -/
def finditer (p : Pattern UInt8) (pos : Nat) : Bytes → List (Nat × Nat)
  | [] => []
  | b :: rest =>
    match p.longest (b :: rest) with
    | some (n + 1) => (pos, pos + (n + 1)) :: finditer p (pos + (n + 1)) (rest.drop n)
    | _ => finditer p (pos + 1) rest
termination_by text => text.length
decreasing_by
  · rw [List.length_drop, List.length_cons]
    omega
  · exact Nat.lt_succ_self _

/-- `get_touching_prefix`, with the prefixes that are left behind the position reached so far. -/
def getTouchingPrefix (filePos : Nat) (prefixes : List (Nat × Nat)) :
    Option Nat × List (Nat × Nat) :=
  match prefixes.dropWhile fun p => p.2 < filePos with
  | [] => (none, [])
  | p :: left => (if p.2 = filePos then some p.1 else none, p :: left)

def createHint (config : Config) (pathId : Option Nat) (startPos : Option Nat) (filePos : Nat) :
    Option Hint :=
  match startPos with
  | none => none
  | some start =>
    match config.toDelete with
    | .all =>
      -- The first string of the vocabulary is the replacement.
      let val := if config.replacement ≠ [] then some 0 else none
      some { patches := [{ left := some start, right := some (filePos + 1), path := pathId
                           value := val }] }
    | .only =>
      some { patches := [{ left := some start, right := some (start + 1), path := pathId },
        { left := some filePos, right := some (filePos + 1), path := pathId }] }
    | .inside =>
      if filePos - start ≤ 1 then none
      else some { patches := [{ left := some (start + 1), right := some filePos, path := pathId }] }

/-- The scan of a file. `none` on the stack is an open bracket without the expected prefix. -/
def scanFrom (config : Config) (pathId : Option Nat) (activeStack : List (Option Nat))
    (prefixes : List (Nat × Nat)) (filePos : Nat) : Bytes → List Hint
  | [] => []
  | ch :: rest =>
    if ch = config.search.openCh then
      let (start, prefixes) := if config.searchPrefix.isSome then getTouchingPrefix filePos prefixes
        else (some filePos, prefixes)
      scanFrom config pathId (start :: activeStack) prefixes (filePos + 1) rest
    else if ch = config.search.closeCh then
      match activeStack with
      | [] => scanFrom config pathId [] prefixes (filePos + 1) rest
      | startPos :: activeStack =>
        (createHint config pathId startPos filePos).toList ++
          scanFrom config pathId activeStack prefixes (filePos + 1) rest
    else scanFrom config pathId activeStack prefixes (filePos + 1) rest

def generateHintsForFile (config : Config) (pathId : Option Nat) (contents : Bytes) : List Hint :=
  let prefixes := match config.searchPrefix with
    | none => []
    | some p => finditer p 0 contents
  scanFrom config pathId [] prefixes 0 contents

/-- `generate_hints`, for the files that are left to the pass; in a directory each has its path. -/
def generateHints (config : Config) (paths : List (Option RelPath × Bytes)) : HintBundle :=
  paths.foldl
    (fun b f =>
      match f.1 with
      | none => { b with hints := b.hints ++ generateHintsForFile config none f.2 }
      | some path =>
        let pathId := b.vocabulary.length
        { b with
          vocabulary := b.vocabulary ++ [encode (strOfPath path)]
          hints := b.hints ++ generateHintsForFile config (some pathId) f.2 })
    { hints := [], vocabulary := if config.replacement ≠ [] then [config.replacement] else [] }

end BalancedPass

end Cvise
