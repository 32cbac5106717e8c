import Cvise.Pattern
import Cvise.Text

namespace Cvise
set_option autoImplicit true
open Pattern

inductive TokKind where
  | keyword
  | op
  | ident
  | other
  | number
  | ws
  | newline
  | string
  | unknown
deriving DecidableEq

/-- What a rule does. `echo` is the default rule that flex adds. -/
inductive Action where
  | token (kind : TokKind)
  | comment
  | echo
deriving DecidableEq

/-- A quoted string of a rule. -/
def quoted (s : String) : Pattern UInt8 := word s.toUTF8.data.toList

def oneOf (s : String) : Pattern UInt8 := sat (s.toUTF8.data.toList.contains ·)

def noneOf (s : String) : Pattern UInt8 := sat fun b => !s.toUTF8.data.toList.contains b

/-- The dot of a rule: every byte but the newline. -/
def anyByte : Pattern UInt8 := noneOf "\n"

def digitPattern : Pattern UInt8 := sat fun b => 48 ≤ b && b ≤ 57

def letterPattern : Pattern UInt8 := sat fun b => (97 ≤ b && b ≤ 122) || (65 ≤ b && b ≤ 90) || b = 95

def hexPattern : Pattern UInt8 :=
  sat fun b => (97 ≤ b && b ≤ 102) || (65 ≤ b && b ≤ 70) || (48 ≤ b && b ≤ 57)

def exponentPattern : Pattern UInt8 := seq (oneOf "Ee") (seq (opt (oneOf "+-")) (plus digitPattern))

def floatSuffix : Pattern UInt8 := oneOf "fFlL"

def intSuffix : Pattern UInt8 := star (oneOf "uUlL")

/-- The inside of a literal between two quotes. -/
def literalPart (stops : String) : Pattern UInt8 := alt (seq (quoted "\\") anyByte) (noneOf stops)

def keywords : List String :=
  ["auto", "break", "case", "char", "const", "continue", "default", "do", "double", "else", "enum",
    "extern", "float", "for", "goto", "if", "int", "long", "register", "return", "short", "signed",
    "sizeof", "static", "struct", "switch", "typedef", "union", "unsigned", "void", "volatile",
    "while"]

def lexicalRules : List (Pattern UInt8 × Action) :=
  [(seq letterPattern (star (alt letterPattern digitPattern)), .token .ident),
    (seq (quoted "0") (seq (oneOf "xX") (seq (plus hexPattern) (opt intSuffix))), .token .number),
    (seq (quoted "0") (seq (plus digitPattern) (opt intSuffix)), .token .number),
    (seq (plus digitPattern) (opt intSuffix), .token .number),
    (seq (opt (quoted "L")) (seq (quoted "'") (seq (plus (literalPart "\\'")) (quoted "'"))),
      .token .other),
    (seq (plus digitPattern) (seq exponentPattern (opt floatSuffix)), .token .number),
    (seq (star digitPattern) (seq (quoted ".") (seq (plus digitPattern)
      (seq (opt exponentPattern) (opt floatSuffix)))), .token .number),
    (seq (plus digitPattern) (seq (quoted ".") (seq (star digitPattern)
      (seq (opt exponentPattern) (opt floatSuffix)))), .token .number),
    (seq (opt (quoted "L")) (seq (quoted "\"") (seq (star (literalPart "\\\"")) (quoted "\""))),
      .token .string),
    (quoted "...", .token .other)]

def operators : List (Pattern UInt8) :=
  [quoted ">>=", quoted "<<=", quoted "+=", quoted "-=", quoted "*=", quoted "/=", quoted "%=",
    quoted "&=", quoted "^=", quoted "|=", quoted ">>", quoted "<<", quoted "++", quoted "--",
    quoted "->", quoted "&&", quoted "||", quoted "<=", quoted ">=", quoted "==", quoted "!=",
    quoted ";", alt (quoted "\x7b") (quoted "<%"), alt (quoted "\x7d") (quoted "%>"), quoted ",",
    quoted ":", quoted "=", quoted "(", quoted ")", alt (quoted "[") (quoted "<:"),
    alt (quoted "]") (quoted ":>"), quoted ".", quoted "&", quoted "!", quoted "~", quoted "-",
    quoted "+", quoted "*", quoted "/", quoted "%", quoted "<", quoted ">", quoted "^", quoted "|",
    quoted "?"]

/-- A backslash that joins two lines. -/
def splicePattern : Pattern UInt8 :=
  seq (quoted "\\") (seq (star (oneOf " \t")) (quoted "\n"))

def newlinePattern : Pattern UInt8 := oneOf "\n"

/-- The rules of `clex.l`, in order. -/
def clexRules : List (Pattern UInt8 × Action) :=
  keywords.map (fun s => (quoted s, .token .keyword)) ++ lexicalRules ++
    operators.map (fun p => (p, .token .op)) ++
    [(quoted "#", .token .other),
      (splicePattern, .token .other),
      (quoted "\\", .token .other),
      (quoted "/*", .comment),
      (oneOf " \t\x0b\x0c", .token .ws),
      (newlinePattern, .token .newline),
      (anyByte, .token .unknown)]

/-- How much the scanner matches at the start of the text, and what it then does. -/
def matchRule (text : Bytes) : Nat × Action := (munch clexRules text).getD (1, .echo)

/-- `path_id`: -1 for the file of the command line, else the position of the file in the list that
comes from stdin; `INT_MAX` once the input has ended. -/
inductive PathId where
  | single
  | listed (i : Nat)
  | ended
deriving DecidableEq

/-- `++path_id`. -/
def PathId.succ : PathId → PathId
  | listed i => listed (i + 1)
  | p => p

/-- `struct tok_t`. -/
structure Tok where
  str : Bytes
  kind : TokKind
  pathId : PathId
  id : Int := -1
  len : Nat
  startPos : Nat
deriving DecidableEq

/-- The globals that the scanner works on. -/
structure Scanner where
  /-- What is unread of the open file; none is open where this is `none`. -/
  yyin : Option Bytes
  pathId : PathId
  tokEndPos : Nat := 0
  /-- The contents of the files whose paths are still to be read from stdin. -/
  stdin : List Bytes
  tokList : List Tok := []
deriving DecidableEq

namespace Scanner

/-- The bytes that the scanner sees before the end of the file. -/
def rest (s : Scanner) : Bytes := s.yyin.getD []

/-- Everything still to be read, a file counting as one more. -/
def unread (s : Scanner) : Nat := s.rest.length + (s.stdin.map (·.length + 1)).sum

end Scanner

/-- `strdup`, which stops at a NUL byte. -/
def strdup (text : Bytes) : Bytes := text.takeWhile (· ≠ 0)

def addTok (s : Scanner) (yytext : Bytes) (kind : TokKind) : Scanner :=
  { s with tokList := s.tokList ++ [{
      str := strdup yytext
      kind := kind
      pathId := s.pathId
      len := yytext.length
      startPos := s.tokEndPos - yytext.length }] }

/-- `none` where the assertion fails. -/
def processToken (s : Scanner) (yytext : Bytes) (kind : TokKind) : Option Scanner :=
  if s.pathId = .ended then none else some (addTok s yytext kind)

/-- What `yywrap` does once `fopen` has opened the next file. -/
def openNext (s : Scanner) (f : Bytes) (stdin : List Bytes) : Scanner :=
  { s with
    yyin := some f
    pathId := if s.yyin.isSome then s.pathId.succ else s.pathId
    tokEndPos := 0
    stdin := stdin }

/-- Opens the next file, or says that there is none. -/
def yywrap (s : Scanner) : Bool × Scanner :=
  if s.pathId = .single then (true, { s with pathId := .ended })
  else
    match s.stdin with
    | [] => (true, { s with pathId := .ended })
    | f :: stdin => (false, openNext s f stdin)

theorem yywrap_eq (h : yywrap s = (false, s₁)) :
    ∃ f stdin, s.stdin = f :: stdin ∧ s₁ = openNext s f stdin := by
  rw [yywrap] at h
  split at h
  · cases h
  · split at h
    · cases h
    · rename_i f stdin hs
      exact ⟨f, stdin, hs, (Prod.mk.inj h).2.symm⟩

theorem yywrap_stdin (h : yywrap s = (false, s₁)) : s₁.stdin.length < s.stdin.length := by
  obtain ⟨f, stdin, hs, rfl⟩ := yywrap_eq h
  rw [hs]
  exact Nat.lt_succ_self _

theorem yywrap_unread (h : yywrap s = (false, s₁)) : s₁.unread < s.unread := by
  obtain ⟨f, stdin, hs, rfl⟩ := yywrap_eq h
  simp only [Scanner.unread, Scanner.rest, openNext, hs, List.map_cons, List.sum_cons,
    Option.getD_some]
  omega

/-- The next byte of the input, across files; `none` at its end. -/
def input (s : Scanner) : Option UInt8 × Scanner :=
  match s.rest with
  | c :: rest => (some c, { s with yyin := some rest })
  | [] =>
    match _ : yywrap s with
    | (true, s₁) => (none, s₁)
    | (false, s₁) => input s₁
termination_by s.stdin.length
decreasing_by exact yywrap_stdin (by assumption)

def unput (c : UInt8) (s : Scanner) : Scanner := { s with yyin := some (c :: s.rest) }

theorem input_wrapped (h : s.rest = []) :
    input s = if (yywrap s).1 then (none, (yywrap s).2) else input (yywrap s).2 := by
  rw [input]
  split
  · rename_i hr
    rw [h] at hr
    cases hr
  · split
    · rename_i s₁ hw
      rw [hw]
      rfl
    · rename_i s₁ hw
      rw [hw]
      rfl

theorem yywrap_end (h : yywrap s = (true, s₁)) : s₁ = { s with pathId := .ended } := by
  rw [yywrap] at h
  split at h
  · exact (Prod.mk.inj h).2.symm
  · split at h
    · exact (Prod.mk.inj h).2.symm
    · cases h

theorem input_unread (s : Scanner) (h : input s = (c, s₁)) :
    s₁.unread + c.toList.length ≤ s.unread := by
  induction s using input.induct with
  | case1 s c' rest hr =>
    rw [input, hr] at h
    obtain ⟨rfl, rfl⟩ := Prod.mk.inj h
    simp only [Scanner.unread, Scanner.rest] at hr ⊢
    rw [hr]
    simp only [Option.getD_some, List.length_cons, Option.toList_some, List.length_nil]
    omega
  | case2 s hr s₂ hw =>
    rw [input_wrapped hr, hw] at h
    obtain ⟨rfl, rfl⟩ := Prod.mk.inj h
    rw [yywrap_end hw]
    exact Nat.le_refl _
  | case3 s hr s₂ hw ih =>
    rw [input_wrapped hr, hw] at h
    exact (ih h).trans (yywrap_unread hw).le

def commentLoop (startPathId : PathId) (prev : UInt8) (s : Scanner) : Scanner :=
  match _ : input s with
  | (none, s₁) => s₁
  | (some c, s₁) =>
    if s₁.pathId = .ended then s₁
    else if s₁.pathId ≠ startPathId then unput c s₁
    else if c = 47 ∧ prev = 42 then { s₁ with tokEndPos := s₁.tokEndPos + 1 }
    else commentLoop startPathId c { s₁ with tokEndPos := s₁.tokEndPos + 1 }
termination_by s.unread
decreasing_by exact (input_unread s (by assumption) : s₁.unread + 1 ≤ s.unread)

theorem commentLoop_end (h : input s = (none, s₁)) : commentLoop p prev s = s₁ := by
  rw [commentLoop]
  split
  · rename_i s₂ h₂
    exact (Prod.mk.inj (h₂.symm.trans h)).2
  · rename_i c s₂ h₂
    cases h₂.symm.trans h

theorem commentLoop_byte (h : input s = (some c, s₁)) : commentLoop p prev s =
    if s₁.pathId = .ended then s₁
    else if s₁.pathId ≠ p then unput c s₁
    else if c = 47 ∧ prev = 42 then { s₁ with tokEndPos := s₁.tokEndPos + 1 }
    else commentLoop p c { s₁ with tokEndPos := s₁.tokEndPos + 1 } := by
  rw [commentLoop]
  split
  · rename_i s₂ h₂
    cases h₂.symm.trans h
  · rename_i c' s₂ h₂
    obtain ⟨hc, rfl⟩ := Prod.mk.inj (h₂.symm.trans h)
    rw [Option.some.inj hc]

theorem commentLoop_unread (p : PathId) (prev : UInt8) (s : Scanner) :
    (commentLoop p prev s).unread ≤ s.unread := by
  induction prev, s using commentLoop.induct p with
  | case1 prev s s₁ h =>
    rw [commentLoop_end h]
    exact input_unread s h
  | case2 prev s c s₁ h hend =>
    rw [commentLoop_byte h, if_pos hend]
    exact (Nat.le_succ _).trans (input_unread s h)
  | case3 prev s c s₁ h hend hp =>
    rw [commentLoop_byte h, if_neg hend, if_pos hp]
    have hle : s₁.unread + 1 ≤ s.unread := input_unread s h
    simp only [Scanner.unread, Scanner.rest, unput, Option.getD_some, List.length_cons] at hle ⊢
    omega
  | case4 prev s c s₁ h hend hp hc =>
    rw [commentLoop_byte h, if_neg hend, if_neg hp, if_pos hc]
    exact (Nat.le_succ _).trans (input_unread s h)
  | case5 prev s c s₁ h hend hp hc ih =>
    rw [commentLoop_byte h, if_neg hend, if_neg hp, if_neg hc]
    exact ih.trans ((Nat.le_succ _).trans (input_unread s h))

theorem clexRules_not_nullable : ∀ r ∈ clexRules, r.1.nullable = false := by
  decide +kernel

theorem matchRule_le (h : text ≠ []) : (matchRule text).1 ≤ text.length := by
  rw [matchRule]
  cases hm : munch clexRules text with
  | none => exact List.length_pos_iff.2 h
  | some found =>
    obtain ⟨n, action⟩ := found
    obtain ⟨p, -, hle, -⟩ := munch_mem hm
    exact hle

theorem matchRule_pos (text : Bytes) : 0 < (matchRule text).1 := by
  rw [matchRule]
  cases hm : munch clexRules text with
  | none => exact Nat.one_pos
  | some found =>
    obtain ⟨n, action⟩ := found
    obtain ⟨p, hp, hle, hmem⟩ := munch_mem hm
    rcases Nat.eq_zero_or_pos n with rfl | hpos
    · have hn : p.nullable = false := clexRules_not_nullable (p, action) hp
      rw [(nullable_iff p).2 hmem] at hn
      cases hn
    · exact hpos

/-- `YY_USER_ACTION`, once the text of a rule is read. -/
def Scanner.advance (s : Scanner) (yyleng : Nat) : Scanner :=
  { s with yyin := some (s.rest.drop yyleng), tokEndPos := s.tokEndPos + yyleng }

/-- One rule: the match and its action. -/
def scanRule (s : Scanner) : Option Scanner :=
  let n := (matchRule s.rest).1
  match (matchRule s.rest).2 with
  | .token kind => processToken (s.advance n) (s.rest.take n) kind
  | .comment => some (commentLoop s.pathId 0 (s.advance n))
  | .echo => some (s.advance n)

theorem scanRule_unread (hrest : s.rest = b :: bs) (h : scanRule s = some s₁) :
    s₁.unread < s.unread := by
  have hadvance : (s.advance (matchRule s.rest).1).unread < s.unread := by
    have hpos := matchRule_pos s.rest
    have hlen : 0 < s.rest.length := by rw [hrest]; exact Nat.succ_pos _
    simp only [Scanner.unread, Scanner.advance, Scanner.rest, Option.getD_some, List.length_drop]
      at hpos hlen ⊢
    omega
  rw [scanRule] at h
  split at h
  · rw [processToken] at h
    split at h
    · cases h
    · obtain rfl := Option.some.inj h
      exact hadvance
  · obtain rfl := Option.some.inj h
    exact (commentLoop_unread _ _ _).trans_lt hadvance
  · obtain rfl := Option.some.inj h
    exact hadvance

/-- The scanner, up to the end of the last file. -/
def yylex (s : Scanner) : Option Scanner :=
  match _ : s.rest with
  | [] =>
    match _ : yywrap s with
    | (true, s₁) => some s₁
    | (false, s₁) => yylex s₁
  | _ :: _ =>
    match _ : scanRule s with
    | none => none
    | some s₁ => yylex s₁
termination_by s.unread
decreasing_by
  · exact yywrap_unread (by assumption)
  · exact scanRule_unread (by assumption) (by assumption)

theorem yylex_wrapped (h : s.rest = []) :
    yylex s = if (yywrap s).1 then some (yywrap s).2 else yylex (yywrap s).2 := by
  rw [yylex]
  split
  · split
    · rename_i s₁ hw
      rw [hw]
      rfl
    · rename_i s₁ hw
      rw [hw]
      rfl
  · rename_i hr
    rw [h] at hr
    cases hr

theorem yylex_rule (h : s.rest = b :: bs) : yylex s = (scanRule s).bind yylex := by
  rw [yylex]
  split
  · rename_i hr
    rw [h] at hr
    cases hr
  · split
    · rename_i hs
      rw [hs]
      rfl
    · rename_i s₁ hs
      rw [hs]
      rfl

end Cvise
