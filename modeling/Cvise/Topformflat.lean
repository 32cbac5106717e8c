import Cvise.ClexScanner

namespace Cvise
set_option autoImplicit true
open Pattern

namespace Topformflat

/-- The start conditions, all of them exclusive. -/
inductive StartCondition where
  | initial
  | string
  | charlit
deriving DecidableEq

/-- What a rule does. -/
inductive RuleAction where
  | semicolon
  | openBrace
  | closeBrace
  | directive
  | switchTo (c : StartCondition)
  | whitespace
  | nothing
deriving DecidableEq

def blankPattern : Pattern UInt8 := oneOf " \t"

/-- `(.|\n)`. -/
def anyOrNewline : Pattern UInt8 := alt anyByte newlinePattern

/-- The rule of a directive, without the anchor before it. -/
def directivePattern : Pattern UInt8 :=
  seq (star blankPattern) (seq (quoted "#") (seq (star anyByte)
    (seq (star (seq (quoted "\\\n") (star anyByte))) (quoted "\n"))))

def literalRules (quote : String) : List (Pattern UInt8 × RuleAction) :=
  [(seq (quoted "\\") anyOrNewline, .nothing),
    (quoted quote, .switchTo .initial),
    (anyOrNewline, .nothing)]

/-- The rules that are active; the one of a directive only where a line begins. -/
def rules : StartCondition → Bool → List (Pattern UInt8 × RuleAction)
  | .initial, atBol =>
    [(quoted ";", .semicolon),
      (quoted "/\n", .nothing),
      (quoted "\x7b", .openBrace),
      (seq (quoted "\x7d") (opt (quoted ";")), .closeBrace)] ++
    (if atBol then [(directivePattern, .directive)] else []) ++
    [(seq (quoted "//") (seq (star anyByte) (quoted "\n")), .nothing),
      (quoted "\"", .switchTo .string),
      (quoted "'", .switchTo .charlit),
      (newlinePattern, .whitespace),
      (plus blankPattern, .whitespace),
      (anyByte, .nothing)]
  | .string, _ => literalRules "\""
  | .charlit, _ => literalRules "'"

/-- How much the scanner matches at the start of the text, and what it then does. -/
def matchRule (c : StartCondition) (atBol : Bool) (text : Bytes) : Nat × RuleAction :=
  (munch (rules c atBol) text).getD (1, .nothing)

/-- A line of the output: a hint of one patch. -/
structure Chunk where
  l : Nat
  r : Nat
  path : PathId
deriving DecidableEq

/-- The globals of the tool. -/
structure Flat where
  threshold : Int
  /-- What is unread of the open file; none is open where this is `none`. -/
  yyin : Option Bytes
  pathId : PathId
  /-- The contents of the files whose paths are still to be read from stdin. -/
  stdin : List Bytes
  condition : StartCondition := .initial
  atBol : Bool := true
  tokenEndPos : Nat := 0
  chunkStartPos : Nat := 0
  nesting : Int := 0
  whitespaceStartPos : Int := -1
  whitespaceEndPos : Int := -1
  printed : List Chunk := []
deriving DecidableEq

namespace Flat

/-- The bytes that the scanner sees before the end of the file. -/
def rest (s : Flat) : Bytes := s.yyin.getD []

def possibleChunkBegin (s : Flat) (pos : Nat) : Flat :=
  if s.nesting ≤ s.threshold then { s with chunkStartPos := pos } else s

def chunkEnd (s : Flat) (pos : Nat) : Flat :=
  -- Empty chunk.
  if pos ≤ s.chunkStartPos then s
  -- Skip deleting chunks consisting of whitespaces only.
  else if s.whitespaceStartPos ≤ s.chunkStartPos ∧ pos ≤ s.whitespaceEndPos then s
  else { s with printed := s.printed ++ [⟨s.chunkStartPos, pos, s.pathId⟩] }

/-- `none` where the assertion fails. -/
def possibleChunkEnd (s : Flat) (pos : Nat) : Option Flat :=
  if s.pathId = .ended then none
  -- Only attempt deleting chunks exactly at the specified nesting.
  else some ((if s.nesting = s.threshold then s.chunkEnd pos else s).possibleChunkBegin pos)

def resetToInitialState (s : Flat) : Flat :=
  { s with
    condition := .initial
    tokenEndPos := 0
    chunkStartPos := 0
    nesting := 0
    whitespaceStartPos := -1
    whitespaceEndPos := -1 }

/-- The chunk of text that remains at the end of a file, where it is to be deleted. -/
def remainingChunk (s : Flat) : Flat :=
  if s.threshold ≤ s.nesting then s.chunkEnd s.tokenEndPos else s

/-- What `yywrap` does once `fopen` has opened the next file. The restart with the new file puts the
scanner at the begin of a line. -/
def openNext (s : Flat) (f : Bytes) (stdin : List Bytes) : Flat :=
  { s.resetToInitialState with
    yyin := some f
    pathId := if s.yyin.isSome then s.pathId.succ else s.pathId
    stdin := stdin
    atBol := true }

/-- Opens the next file, or says that there is none. -/
def yywrap (s : Flat) : Bool × Flat :=
  if s.remainingChunk.pathId = .single then (true, { s.remainingChunk with pathId := .ended })
  else
    match s.remainingChunk.stdin with
    | [] => (true, { s.remainingChunk with pathId := .ended })
    | f :: stdin => (false, s.remainingChunk.openNext f stdin)

/-- What is done once the text of a rule is read: flex notes whether a line begins next, and
`YY_USER_ACTION`. -/
def advance (s : Flat) (yyleng : Nat) : Flat :=
  { s with
    yyin := some (s.rest.drop yyleng)
    atBol := (s.rest.take yyleng).getLast? = some 10
    tokenEndPos := s.tokenEndPos + yyleng }

/-- The first step of a directive's action: make sure starts on own line. -/
def endBeforeLine (s : Flat) (startPos : Nat) : Option Flat :=
  if 0 < startPos then s.possibleChunkEnd (startPos - 1) else some s

/-- The action of a rule that has matched `yyleng` bytes. -/
def act (s : Flat) (yyleng : Nat) : RuleAction → Option Flat
  | .semicolon => s.possibleChunkEnd s.tokenEndPos
  | .openBrace =>
    -- So the header is separated from the components.
    some ({ s with nesting := s.nesting + 1 }.possibleChunkBegin s.tokenEndPos)
  | .closeBrace => { s with nesting := s.nesting - 1 }.possibleChunkEnd s.tokenEndPos
  | .directive => do
    let s ← s.endBeforeLine (s.tokenEndPos - yyleng)
    -- Minus one to preserve the newline.
    let s ← s.possibleChunkEnd (s.tokenEndPos - 1)
    return s.possibleChunkBegin s.tokenEndPos
  | .switchTo c => some { s with condition := c }
  | .whitespace =>
    let tokenStartPos := s.tokenEndPos - yyleng
    -- Start a new whitespace block, unless the previous one is to be continued.
    some { s with
      whitespaceStartPos :=
        if (tokenStartPos : Int) ≠ s.whitespaceEndPos then tokenStartPos else s.whitespaceStartPos
      whitespaceEndPos := s.tokenEndPos }
  | .nothing => some s

/-- One rule: the match and its action. -/
def scanRule (s : Flat) : Option Flat :=
  let (n, action) := matchRule s.condition s.atBol s.rest
  (s.advance n).act n action

end Flat

theorem rules_not_nullable (c : StartCondition) (atBol : Bool) :
    ∀ r ∈ rules c atBol, r.1.nullable = false := by
  cases atBol <;> cases c <;> decide +kernel

theorem matchRule_pos (c : StartCondition) (atBol : Bool) (text : Bytes) :
    0 < (matchRule c atBol text).1 := by
  rw [matchRule]
  cases hm : munch (rules c atBol) text with
  | none => exact Nat.one_pos
  | some found =>
    obtain ⟨n, action⟩ := found
    obtain ⟨p, hp, -, hmem⟩ := munch_mem hm
    rcases Nat.eq_zero_or_pos n with rfl | hpos
    · have hn : p.nullable = false := rules_not_nullable c atBol (p, action) hp
      rw [(nullable_iff p).2 hmem] at hn
      cases hn
    · exact hpos

theorem matchRule_le (c : StartCondition) (atBol : Bool) (h : text ≠ []) :
    (matchRule c atBol text).1 ≤ text.length := by
  rw [matchRule]
  cases hm : munch (rules c atBol) text with
  | none => exact List.length_pos_iff.2 h
  | some found =>
    obtain ⟨n, action⟩ := found
    obtain ⟨p, -, hle, -⟩ := munch_mem hm
    exact hle

namespace Flat

/-- The start condition after a rule. -/
def nextCondition (c : StartCondition) : RuleAction → StartCondition
  | .switchTo c' => c'
  | _ => c

/-- What the end or the begin of a chunk does not change. -/
structure Kept (s s₁ : Flat) : Prop where
  threshold : s₁.threshold = s.threshold
  yyin : s₁.yyin = s.yyin
  pathId : s₁.pathId = s.pathId
  stdin : s₁.stdin = s.stdin
  condition : s₁.condition = s.condition
  atBol : s₁.atBol = s.atBol
  tokenEndPos : s₁.tokenEndPos = s.tokenEndPos

theorem Kept.refl (s : Flat) : s.Kept s := ⟨rfl, rfl, rfl, rfl, rfl, rfl, rfl⟩

theorem Kept.trans {s s₁ s₂ : Flat} (h : s.Kept s₁) (h₁ : s₁.Kept s₂) : s.Kept s₂ :=
  ⟨h₁.threshold.trans h.threshold, h₁.yyin.trans h.yyin, h₁.pathId.trans h.pathId,
    h₁.stdin.trans h.stdin, h₁.condition.trans h.condition, h₁.atBol.trans h.atBol,
    h₁.tokenEndPos.trans h.tokenEndPos⟩

theorem setNesting_kept (s : Flat) : s.Kept { s with nesting := n } :=
  ⟨rfl, rfl, rfl, rfl, rfl, rfl, rfl⟩

theorem possibleChunkBegin_kept (s : Flat) (pos : Nat) : s.Kept (s.possibleChunkBegin pos) := by
  rw [possibleChunkBegin]
  split
  · exact ⟨rfl, rfl, rfl, rfl, rfl, rfl, rfl⟩
  · exact .refl s

theorem chunkEnd_kept (s : Flat) (pos : Nat) : s.Kept (s.chunkEnd pos) := by
  rw [chunkEnd]
  split
  · exact .refl s
  · split
    · exact .refl s
    · exact ⟨rfl, rfl, rfl, rfl, rfl, rfl, rfl⟩

theorem possibleChunkEnd_kept (h : possibleChunkEnd s pos = some s₁) : s.Kept s₁ := by
  rw [possibleChunkEnd] at h
  split at h
  · cases h
  · obtain rfl := Option.some.inj h
    have hend : s.Kept (if s.nesting = s.threshold then s.chunkEnd pos else s) := by
      split
      · exact s.chunkEnd_kept pos
      · exact .refl s
    exact hend.trans (possibleChunkBegin_kept _ pos)

theorem act_directive (h : act s yyleng .directive = some s₁) : ∃ s₂ s₃,
    s.endBeforeLine (s.tokenEndPos - yyleng) = some s₂ ∧
    s₂.possibleChunkEnd (s₂.tokenEndPos - 1) = some s₃ ∧
      s₁ = s₃.possibleChunkBegin s₃.tokenEndPos := by
  rw [act] at h
  obtain ⟨s₂, h₂, h⟩ := Option.bind_eq_some_iff.1 h
  obtain ⟨s₃, h₃, h⟩ := Option.bind_eq_some_iff.1 h
  exact ⟨s₂, s₃, h₂, h₃, (Option.some.inj h).symm⟩

theorem act_kept (h : act s yyleng action = some s₁) :
    ({ s with condition := nextCondition s.condition action } : Flat).Kept s₁ := by
  cases action with
  | semicolon => exact possibleChunkEnd_kept h
  | openBrace =>
    obtain rfl := Option.some.inj h
    exact s.setNesting_kept.trans (possibleChunkBegin_kept _ s.tokenEndPos)
  | closeBrace => exact s.setNesting_kept.trans (possibleChunkEnd_kept h)
  | directive =>
    obtain ⟨s₂, s₃, h₂, h₃, rfl⟩ := act_directive h
    have hstart : s.Kept s₂ := by
      rw [endBeforeLine] at h₂
      split at h₂
      · exact possibleChunkEnd_kept h₂
      · exact Option.some.inj h₂ ▸ .refl s
    exact (hstart.trans (possibleChunkEnd_kept h₃)).trans (possibleChunkBegin_kept _ _)
  | switchTo c =>
    obtain rfl := Option.some.inj h
    exact ⟨rfl, rfl, rfl, rfl, rfl, rfl, rfl⟩
  | whitespace =>
    obtain rfl := Option.some.inj h
    exact ⟨rfl, rfl, rfl, rfl, rfl, rfl, rfl⟩
  | nothing => exact Option.some.inj h ▸ .refl s

theorem scanRule_kept (h : scanRule s = some s₁) :
    ({ s.advance (matchRule s.condition s.atBol s.rest).1 with
      condition := nextCondition s.condition (matchRule s.condition s.atBol s.rest).2 } : Flat).Kept
        s₁ := act_kept h

theorem scanRule_rest (h : scanRule s = some s₁) :
    s₁.rest = s.rest.drop (matchRule s.condition s.atBol s.rest).1 := by
  rw [Flat.rest, (scanRule_kept h).yyin]
  rfl

/-- The rules, one after the other, up to the end of the file. -/
def scanRules (s : Flat) : Option Flat :=
  match _ : s.rest with
  | [] => some s
  | _ :: _ =>
    match _ : scanRule s with
    | none => none
    | some s₁ => scanRules s₁
termination_by s.rest.length
decreasing_by
  have hpos := matchRule_pos s.condition s.atBol s.rest
  have hlen : 0 < s.rest.length := by simp [*]
  rw [scanRule_rest (by assumption : s.scanRule = some s₁), List.length_drop]
  exact Nat.sub_lt hlen hpos

theorem scanRules_end (h : s.rest = []) : scanRules s = some s := by
  rw [scanRules]
  split
  · rfl
  · rename_i hr
    rw [h] at hr
    cases hr

theorem scanRules_rule (h : s.rest ≠ []) : scanRules s = (scanRule s).bind scanRules := by
  rw [scanRules]
  split
  · rename_i hr
    exact absurd hr h
  · split
    · rename_i hs
      rw [hs]
      rfl
    · rename_i s₁ hs
      rw [hs]
      rfl

/-- What every rule keeps, the run of the rules keeps. -/
theorem scanRules_induction {P : Flat → Prop} (hs : P s)
    (step : ∀ s s₁, P s → s.rest ≠ [] → scanRule s = some s₁ → P s₁)
    (h : scanRules s = some s₁) : P s₁ ∧ s₁.rest = [] := by
  induction s using scanRules.induct with
  | case1 s hr =>
    rw [scanRules_end hr] at h
    obtain rfl := Option.some.inj h
    exact ⟨hs, hr⟩
  | case2 s b bs hr hnone =>
    rw [scanRules_rule (hr ▸ List.cons_ne_nil b bs), hnone] at h
    cases h
  | case3 s b bs hr s₂ hsome ih =>
    have hne : s.rest ≠ [] := hr ▸ List.cons_ne_nil b bs
    rw [scanRules_rule hne, hsome] at h
    exact ih (step s s₂ hs hne hsome) h

theorem scanRules_stdin (h : scanRules s = some s₁) : s₁.stdin = s.stdin :=
  (scanRules_induction (P := fun t => t.stdin = s.stdin) rfl
    (fun _ _ ht _ hstep => (scanRule_kept hstep).stdin.trans ht) h).1

theorem remainingChunk_kept (s : Flat) : s.Kept s.remainingChunk := by
  rw [remainingChunk]
  split
  · exact s.chunkEnd_kept s.tokenEndPos
  · exact .refl s

theorem yywrap_eq (h : yywrap s = (false, s₁)) :
    ∃ f stdin, s.stdin = f :: stdin ∧ s₁ = s.remainingChunk.openNext f stdin := by
  rw [yywrap] at h
  split at h
  · cases h
  · split at h
    · cases h
    · rename_i f stdin hstdin
      exact ⟨f, stdin, s.remainingChunk_kept.stdin ▸ hstdin, (Prod.mk.inj h).2.symm⟩

theorem yywrap_stdin (h : yywrap s = (false, s₁)) : s₁.stdin.length < s.stdin.length := by
  obtain ⟨f, stdin, hstdin, rfl⟩ := yywrap_eq h
  rw [hstdin]
  exact Nat.lt_succ_self _

/-- The scanner, up to the end of the last file. -/
def yylex (s : Flat) : Option Flat :=
  match _ : scanRules s with
  | none => none
  | some s₁ =>
    match _ : yywrap s₁ with
    | (true, s₂) => some s₂
    | (false, s₂) => yylex s₂
termination_by s.stdin.length
decreasing_by
  rw [← scanRules_stdin (by assumption : s.scanRules = some s₁)]
  exact yywrap_stdin (by assumption)

end Flat

/-- The file of the command line, or the list of files that comes from stdin. -/
inductive Input where
  | file (data : Bytes)
  | listed (files : List Bytes)

/-- The state in which the scanner starts on the file of the command line. -/
def openFile (threshold : Int) (data : Bytes) : Flat :=
  { threshold := threshold, yyin := some data, pathId := .single, stdin := [] }

/-- `main`, with the state in which it ends; `none` where an assertion fails. -/
def main (threshold : Int) : Input → Option Flat
  | .file data => (openFile threshold data).yylex
  | .listed files =>
    match Flat.yywrap { threshold := threshold, yyin := none, pathId := .listed 0, stdin := files } with
    | (true, s) => some s
    | (false, s) => s.yylex

end Topformflat

end Cvise
