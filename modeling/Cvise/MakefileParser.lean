import Cvise.Text
import Mathlib.Data.List.ModifyLast

namespace Cvise
set_option autoImplicit true

/-- A value in Python that is an `int` or a `str`; one of them is never equal to the other. -/
inductive IntOrStr where
  | int (n : Nat)
  | str (s : Str)
deriving DecidableEq

namespace MakefileParser

def builtinTargets : List RelPath :=
  [".DEFAULT", ".DELETE_ON_ERROR", ".EXPORT_ALL_VARIABLES", ".IGNORE", ".INTERMEDIATE",
    ".LOW_RESOLUTION_TIME", ".NOTINTERMEDIATE", ".NOTPARALLEL", ".ONESHELL", ".PHONY", ".POSIX",
    ".PRECIOUS", ".SECONDARY", ".SECONDEXPANSION", ".SILENT", ".SUFFIXES"].map
      fun s => pathOfStr s.toList

structure SourceLoc where
  beginPos : Nat
  endPos : Nat
deriving DecidableEq

structure TextWithLoc where
  loc : SourceLoc
  value : Bytes
  precedingSpacesLoc : Option SourceLoc := none
deriving DecidableEq

structure PathWithLoc where
  loc : SourceLoc
  value : RelPath
  precedingSpacesLoc : Option SourceLoc := none
deriving DecidableEq

structure RecipeLine where
  loc : SourceLoc
  program : TextWithLoc
  args : List TextWithLoc
deriving DecidableEq

structure Rule where
  loc : SourceLoc
  targets : List PathWithLoc
  prereqs : List PathWithLoc
  recipe : List RecipeLine := []
  unclassifiedLines : List TextWithLoc := []
deriving DecidableEq

structure Makefile where
  rules : List Rule := []
  unclassifiedLines : List TextWithLoc := []
  builtinTargets : List RelPath := []
  phonyTargets : List RelPath := []
deriving DecidableEq

/-- `text.substr(begin, end)`. -/
def TextWithLoc.substr (text : TextWithLoc) (beginPos : Nat) (endPos : Option Nat := none) :
    Except PyErr TextWithLoc :=
  let stop := match endPos with
    | none => text.loc.endPos
    | some e => text.loc.beginPos + e
  if ¬ text.loc.beginPos + beginPos ≤ text.loc.endPos then .error .assertionError
  else if endPos ≠ none ∧ ¬ (text.loc.beginPos + beginPos ≤ stop ∧ stop ≤ text.loc.endPos) then
    .error .assertionError
  else .ok {
    loc := ⟨text.loc.beginPos + beginPos, stop⟩
    value := match endPos with
      | none => text.value.drop beginPos
      | some e => (text.value.take e).drop beginPos }

/-- The lines of a binary file, each with its newline. -/
def byteLines : Bytes → List Bytes
  | [] => []
  | b :: rest =>
    if b = 10 then [b] :: byteLines rest
    else match byteLines rest with
      | [] => [[b]]
      | line :: lines => (b :: line) :: lines

/-- `line.rstrip(b'\r\n').endswith(b'\\')`. -/
def endsInBackslash (line : Bytes) : Bool :=
  (line.reverse.dropWhile fun b => b = 13 || b = 10).head? = some 92

/-- `line.rfind(b'\\')`, of a line that has one. -/
def lastBackslash (line : Bytes) : Nat := line.length - 1 - line.reverse.idxOf 92

/-- One line of the file, which is joined to the one before where that ends in a backslash. -/
def joinLine (lines : List Bytes) (cur : Bytes) : List Bytes :=
  if (lines.getLast?.map endsInBackslash).getD false then
    lines.modifyLast fun last =>
      last.set (lastBackslash last) 32 ++ if cur.head? = some 9 then cur.set 0 32 else cur
  else lines ++ [cur]

def logicalLines (data : Bytes) : List Bytes := (byteLines data).foldl joinLine []

/-- The lines with their locations, from `filePos` on. -/
def locateLines (filePos : Nat) : List Bytes → List TextWithLoc
  | [] => []
  | line :: lines =>
    ⟨⟨filePos, filePos + line.length⟩, line, none⟩ :: locateLines (filePos + line.length) lines

/-- `text.find(sub, start)`. -/
def find (text sub : Bytes) (start : Nat) : Option Nat :=
  (List.range' start (text.length + 1 - start)).find? fun i => sub.isPrefixOf (text.drop i)

/-- `text.split()`. -/
def splitBytes (text : Bytes) : List Bytes :=
  match text with
  | [] => []
  | b :: rest =>
    if isSpaceByte b then splitBytes rest
    else (b :: rest).takeWhile (fun c => !isSpaceByte c) ::
      splitBytes (rest.dropWhile fun c => !isSpaceByte c)
termination_by text.length
decreasing_by
  · exact Nat.lt_succ_self _
  · exact Nat.lt_succ_of_le (List.dropWhile_sublist _).length_le

/-- The loop of `_split_by_spaces` over the words. -/
def locateWords (text : TextWithLoc) (startPos : Nat) : List Bytes → Except PyErr (List TextWithLoc)
  | [] => .ok []
  | tok :: toks => do
    let some pos := find text.value tok startPos | throw .assertionError
    let tokLoc ← text.substr pos (some (pos + tok.length))
    let tokLoc := if pos > startPos then
        { tokLoc with
          precedingSpacesLoc := some ⟨text.loc.beginPos + startPos, text.loc.beginPos + pos⟩ }
      else tokLoc
    let tokLocs ← locateWords text (pos + tok.length) toks
    return tokLoc :: tokLocs

def splitBySpaces (text : TextWithLoc) : Except PyErr (List TextWithLoc) :=
  locateWords text 0 (splitBytes text.value)

def toPaths (toks : List TextWithLoc) : Except PyErr (List PathWithLoc) :=
  toks.mapM fun tok => do return ⟨tok.loc, ← pathOfBytes tok.value, tok.precedingSpacesLoc⟩

def parseRuleLine (line : TextWithLoc) : Except PyErr (Option Rule) := do
  if line.value.head? = some 9 then return none
  let some semicolonPos := find line.value [58] 0 | return none
  let commentStart := find line.value [35] 0
  if commentStart.any (· ≤ semicolonPos) then return none
  let line ← match commentStart with
    | some c => line.substr 0 (some c)
    | none => pure line
  let beforeSemicolon ← line.substr 0 (some semicolonPos)
  let targets ← toPaths (← splitBySpaces beforeSemicolon)
  let afterSemicolon ← line.substr (semicolonPos + 1)
  let prereqs ← toPaths (← splitBySpaces afterSemicolon)
  -- Loc, recipe, unclassified lines may get updated later when parsing recipe lines.
  return some { loc := line.loc, targets := targets, prereqs := prereqs }

/-- `chr(b).isspace()`. -/
def isShellSpace (b : UInt8) : Bool := isSpace (Char.ofNat b.toNat)

/-- What the bytes behind a backslash are compared with. -/
def escapable : List IntOrStr :=
  [.str ['$'], .str [Char.ofNat 96], .str ['"'], .str ['\\'], .str ['\n'], .str ['\r']]

/-- The inner loop of `_split_shell_cmd_line`: the text of a token and how far it goes. -/
def scanToken (activeQuote : Option UInt8) (text : Bytes) : Bytes × Nat :=
  match text with
  | [] => ([], 0)
  | c :: rest =>
    if (c = 34 ∨ c = 39) ∧ activeQuote = some c then
      -- Quotes end.
      let (tok, n) := scanToken none rest
      (tok, n + 1)
    else if (c = 34 ∨ c = 39) ∧ activeQuote = none then
      -- Quotes start.
      let (tok, n) := scanToken (some c) rest
      (tok, n + 1)
    else if c = 92 ∧ activeQuote = some 34 ∧ rest.head?.any (fun b => .int b.toNat ∈ escapable) then
      -- Backslash escape sequence.
      let (tok, n) := scanToken activeQuote rest.tail
      (rest.head?.toList ++ tok, n + 2)
    else if isShellSpace c ∧ activeQuote = none then ([], 0)
    else
      let (tok, n) := scanToken activeQuote rest
      (c :: tok, n + 1)
termination_by text.length

theorem scanToken_pos (h : isShellSpace c = false) (rest : Bytes) :
    0 < (scanToken none (c :: rest)).2 := by
  rw [scanToken]
  split
  · exact Nat.succ_pos _
  · split
    · exact Nat.succ_pos _
    · split
      · exact Nat.succ_pos _
      · rw [if_neg (by simp [h])]
        exact Nat.succ_pos _

theorem drop_scanToken_length {text : Bytes} (h : text.dropWhile isShellSpace = c :: rest) :
    ((c :: rest).drop (scanToken none (c :: rest)).2).length < text.length := by
  have hc : isShellSpace c = false := by
    have hne : text.dropWhile isShellSpace ≠ [] := h ▸ List.cons_ne_nil c rest
    have hhead := List.head_dropWhile_not isShellSpace hne
    simpa only [h, List.head_cons] using hhead
  have hle := (List.dropWhile_sublist isShellSpace (l := text)).length_le
  have hpos := scanToken_pos hc rest
  rw [h] at hle
  rw [List.length_drop]
  rw [List.length_cons] at hle ⊢
  omega

/-- `_split_shell_cmd_line`, of what is left of the text from a position on. -/
def shellTokens (pos : Nat) (text : Bytes) : List TextWithLoc :=
  -- Skip spaces before the next token.
  let spaces := (text.takeWhile isShellSpace).length
  match _ : text.dropWhile isShellSpace with
  | [] => []
  | c :: rest =>
    let tok := (scanToken none (c :: rest)).1
    let n := (scanToken none (c :: rest)).2
    let precedingSpacesLoc := if 0 < spaces then some ⟨pos, pos + spaces⟩ else none
    ⟨⟨pos + spaces, pos + spaces + n⟩, tok, precedingSpacesLoc⟩ ::
      shellTokens (pos + spaces + n) ((c :: rest).drop n)
termination_by text.length
decreasing_by exact drop_scanToken_length (by assumption)

def splitShellCmdLine (text : TextWithLoc) : List TextWithLoc :=
  shellTokens text.loc.beginPos text.value

def parseRecipeLine (line : TextWithLoc) : Except PyErr (Option RecipeLine) := do
  if line.value.head? ≠ some 9 then return none
  let line ← line.substr 1
  let line ← if line.value.head? = some 64 then line.substr 1 else pure line
  match splitShellCmdLine line with
  | [] => return none
  | program :: args => return some { loc := line.loc, program := program, args := args }

/-- One line of the main loop. -/
def parseLine (mk : Makefile) (line : TextWithLoc) : Except PyErr Makefile := do
  let recipe ← if mk.rules ≠ [] then parseRecipeLine line else pure none
  match recipe with
  | some recipe => return { mk with rules := mk.rules.modifyLast fun rule =>
      { rule with
        loc := { rule.loc with endPos := line.loc.endPos }
        recipe := rule.recipe ++ [recipe] } }
  | none =>
    match ← parseRuleLine line with
    | some rule => return { mk with rules := mk.rules ++ [rule] }
    | none =>
      if mk.rules ≠ [] then
        return { mk with rules := mk.rules.modifyLast fun rule =>
          { rule with
            loc := { rule.loc with endPos := line.loc.endPos }
            unclassifiedLines := rule.unclassifiedLines ++ [line] } }
      else return { mk with unclassifiedLines := mk.unclassifiedLines ++ [line] }

def collectTargets (mk : Makefile) : Makefile :=
  { mk with
    builtinTargets := mk.rules.flatMap fun rule =>
      (rule.targets.map (·.value)).filter (· ∈ builtinTargets)
    phonyTargets := mk.rules.flatMap fun rule =>
      if rule.targets.any (·.value = pathOfStr ".PHONY".toList) then rule.prereqs.map (·.value)
      else [] }

/-- `parse`, of the contents of the file. -/
def parse (data : Bytes) : Except PyErr Makefile := do
  let mk ← (locateLines 0 (logicalLines data)).foldlM parseLine {}
  return collectTargets mk

end MakefileParser

end Cvise
