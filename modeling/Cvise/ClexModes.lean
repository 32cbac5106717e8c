import Cvise.FreshNames
import Cvise.RmTokPattern
import Cvise.SerialRuns
import Cvise.TextOrder
import Cvise.TokenWords

namespace Cvise
set_option autoImplicit true

/-- A loop over the tokens that prints something in each round. -/
def printLoop (step : σ → Tok → σ × Bytes) (s : σ) : List Tok → σ × Bytes
  | [] => (s, [])
  | t :: toks =>
    let (s', printed) := step s t
    let (s'', rest) := printLoop step s' toks
    (s'', printed ++ rest)

/-- `string_rm_chars`: the loop copies the end of the string too, so that it is shorter then. -/
def stringRmChars (s : Bytes) (i : Nat) : Bytes := s.drop i

/-- A round of `shorten_string`, with `idx` and `matched`. -/
def shortenStep (s : Nat × Bool) (t : Tok) : (Nat × Bool) × Bytes :=
  let (idx, matched) := s
  if !matched && t.kind = .string then
    let len := (t.str.length : Int) - 2
    if len ≤ idx then (((idx - len).toNat, matched), t.str)
    else ((idx, true), t.str.take (idx + 1) ++ stringRmChars (t.str.drop (idx + 1)) 1)
  else (s, t.str)

/-- For an index that is not negative; another one would write in front of the text. -/
def shortenString (idx : Nat) (toks : List Tok) : ClexOutput :=
  let ((_, matched), printed) := printLoop shortenStep (idx, false) toks
  ⟨if matched then 51 else 71, printed⟩

/-- The loop of `x_string` over the characters of a token, with `which` and `matched`. -/
def xChars (idx : Int) (s : Int × Bool) : Bytes → (Int × Bool) × Bytes
  | [] => (s, [])
  | c :: cs =>
    let (s', c') := if c ≠ 120 then
      if s.1 = idx then ((s.1 + 1, true), 120) else ((s.1 + 1, s.2), c)
      else (s, c)
    let (s'', rest) := xChars idx s' cs
    (s'', c' :: rest)

def xStep (idx : Int) (s : Int × Bool) (t : Tok) : (Int × Bool) × Bytes :=
  if !s.2 && t.kind = .string then xChars idx s t.str else (s, t.str)

def xString (idx : Int) (toks : List Tok) : ClexOutput :=
  let ((_, matched), printed) := printLoop (xStep idx) (0, false) toks
  ⟨if matched then 51 else 71, printed⟩

def emptyString : Bytes := [34, 34]

def deleteStep (idx : Int) (s : Int × Bool) (t : Tok) : (Int × Bool) × Bytes :=
  let (which, matched) := s
  if t.kind = .string ∧ t.str ≠ emptyString then
    if which = idx then ((which + 1, true), emptyString) else ((which + 1, matched), t.str)
  else (s, t.str)

def deleteString (idx : Int) (toks : List Tok) : ClexOutput :=
  let ((_, matched), printed) := printLoop (deleteStep idx) (0, false) toks
  ⟨if matched then 51 else 71, printed⟩

def clexMode (mode : List Tok → ClexOutput) (arg : Argument) : Option ClexOutput :=
  match startScanner arg with
  | none => some ⟨71, []⟩
  | some s => (yylex s).map fun s => mode s.tokList

/-- The modes that `ClexPass` is used with, but for the one that `define`s. -/
inductive TokenMode where
  | renameToks
  | deleteString
  | shortenString
  | xString
  | rmTokPattern (nToks : Int)
deriving DecidableEq

/-- `clex`, with a mode and an index. -/
def TokenMode.clex (mode : TokenMode) (idx : Nat) (arg : Argument) : Option ClexOutput :=
  match mode with
  | renameToks => clexRenameToks idx arg
  | deleteString => clexMode (Cvise.deleteString idx) arg
  | shortenString => clexMode (Cvise.shortenString idx) arg
  | xString => clexMode (Cvise.xString idx) arg
  -- `sscanf` with `%d` keeps the low bits of a number that is too large.
  | rmTokPattern nToks => clexRmTokPattern nToks (Int32.ofNat idx) arg

/-- `ClexPass`: the index counts from zero, and stays after a success. -/
def clexPass (clex : Nat → Argument → Option ClexOutput) : SerialPass Nat Bytes where
  transform idx data :=
    match clex idx (.file data) with
    | some ⟨51, stdout⟩ => (.ok, stdout)
    | some ⟨71, _⟩ => (.stop, data)
    | _ => (.error, data)
  advance idx _ := some (idx + 1)
  advanceOnSuccess idx _ := some idx

/-- The token list of a file. -/
def fileToks (data : Bytes) : List Tok := placed .single 0 (scanFile data)

theorem yylex_file (data : Bytes) :
    ∃ s s', startScanner (.file data) = some s ∧ yylex s = some s' ∧
      s'.tokList = fileToks data := by
  have hready : Scanner.Ready { yyin := some data, pathId := .single, stdin := [] } :=
    ⟨rfl, fun _ => rfl, PathId.noConfusion⟩
  obtain ⟨s, hlex, htoks⟩ := yylex_scanned hready
  refine ⟨_, s, rfl, hlex, htoks.trans ?_⟩
  simp only [Scanner.scanned, placedAfter, List.nil_append, List.append_nil, Scanner.rest,
    Option.getD_some]
  rfl

theorem clexMode_file (mode : List Tok → ClexOutput) (data : Bytes) :
    clexMode mode (.file data) = some (mode (fileToks data)) := by
  obtain ⟨s, s', hs, hlex, htoks⟩ := yylex_file data
  rw [clexMode, hs]
  simp only [hlex, Option.map_some, htoks]

/-- What is known of the tokens that stand for a lexeme. -/
structure Lexeme.Gives (l : Lexeme) (t : Tok) : Prop where
  action : l.action = .token t.kind
  str : t.str = strdup l.text
  len : t.len = l.text.length
  id : t.id = -1

theorem placed_induction {motive : List Lexeme → List Tok → Prop} (nil : motive [] [])
    (skip : ∀ l ls toks, motive ls toks → motive (l :: ls) toks)
    (token : ∀ (l : Lexeme) t ls toks, l.Gives t → motive ls toks →
      motive (l :: ls) (t :: toks))
    (p : PathId) (off : Nat) (ls : List Lexeme) : motive ls (placed p off ls) := by
  induction ls generalizing off with
  | nil => exact nil
  | cons l ls ih =>
    cases ha : l.action with
    | token kind =>
      rw [placed_token ha]
      exact token _ _ _ _ ⟨ha, rfl, rfl, rfl⟩ (ih _)
    | comment =>
      obtain ⟨text, action⟩ := l
      obtain rfl : action = .comment := ha
      exact skip _ _ _ (ih _)
    | echo =>
      obtain ⟨text, action⟩ := l
      obtain rfl : action = .echo := ha
      exact skip _ _ _ (ih _)

theorem patternLoop_eq (nToks idx : Int) (s : PatternLoop) (toks : List Tok) :
    patternLoop nToks idx s toks = printLoop (patternStep nToks idx) s toks := by
  induction toks generalizing s with
  | nil => rfl
  | cons t toks ih =>
    rw [patternLoop, printLoop]
    simp only [ih]

theorem clexRmTokPattern_file {nToks : Int} (h : 1 < nToks ∧ nToks ≤ 8) (idx : Int32)
    (data : Bytes) : clexRmTokPattern nToks idx (.file data) =
      some (rmTokPattern nToks.toNat idx (fileToks data)) := by
  obtain ⟨s, s', hs, hlex, htoks⟩ := yylex_file data
  rw [clexRmTokPattern_eq hs hlex, if_pos h, htoks]

theorem clexRenameToks_file (idx : Int) (data : Bytes) :
    clexRenameToks idx (.file data) = renameToks idx (fileToks data) := by
  obtain ⟨s, s', hs, hlex, htoks⟩ := yylex_file data
  rw [clexRenameToks, hs]
  simp only [hlex, Option.bind_some, htoks]

theorem strdup_append (text : Bytes) : ∃ cut, text = strdup text ++ cut :=
  ⟨_, (List.takeWhile_append_dropWhile).symm⟩

theorem strdup_textLe (w : UInt8 → Nat) (r : UInt8 → UInt8 → Prop) (text : Bytes) :
    TextLe w r (strdup text) text := by
  obtain ⟨cut, hcut⟩ := strdup_append text
  have hle : TextLe w r (strdup text) (strdup text ++ cut) := textLe_of_append (strdup text) cut
  rw [← hcut] at hle
  exact hle

section

variable {σ : Type} {step : σ → Tok → σ × Bytes} {w : UInt8 → Nat}
  {r : UInt8 → UInt8 → Prop}

/-- What is printed is no larger than the file, and smaller if a round made it so, which `moved`
says. -/
theorem printLoop_textLe {moved : σ → Bool} {ls : List Lexeme}
    (hstep : ∀ l ∈ ls, ∀ t, l.Gives t → ∀ s,
      (TextLe w r (step s t).2 l.text ∧ moved (step s t).1 = moved s) ∨
        TextLt w r (step s t).2 l.text) (s : σ) (p : PathId) (off : Nat) :
    (TextLe w r (printLoop step s (placed p off ls)).2 (textOf ls) ∧
      moved (printLoop step s (placed p off ls)).1 = moved s) ∨
        TextLt w r (printLoop step s (placed p off ls)).2 (textOf ls) := by
  revert hstep s
  refine placed_induction (motive := fun ls toks => (∀ l ∈ ls, ∀ t, l.Gives t → ∀ s,
    (TextLe w r (step s t).2 l.text ∧ moved (step s t).1 = moved s) ∨
      TextLt w r (step s t).2 l.text) → ∀ s,
    (TextLe w r (printLoop step s toks).2 (textOf ls) ∧
      moved (printLoop step s toks).1 = moved s) ∨
        TextLt w r (printLoop step s toks).2 (textOf ls)) ?_ ?_ ?_ p off ls
  · intro _ s
    exact .inl ⟨.inl rfl, rfl⟩
  · intro l ls toks ih hstep s
    rw [textOf_cons]
    have hnil : TextLe w r [] l.text := textLe_of_append [] l.text
    rcases ih (List.forall_mem_cons.1 hstep).2 s with ⟨hle, hmoved⟩ | hlt
    · exact .inl ⟨hnil.append hle, hmoved⟩
    · exact .inr (hnil.append_lt hlt)
  · intro l t ls toks hl ih hstep s
    obtain ⟨hl', hls⟩ := List.forall_mem_cons.1 hstep
    rw [textOf_cons, printLoop]
    have hround := hl' t hl s
    have hrest := ih hls (step s t).1
    rcases hround with ⟨hle, hmoved⟩ | hlt
    · rcases hrest with ⟨hle', hmoved'⟩ | hlt'
      · exact .inl ⟨hle.append hle', hmoved'.trans hmoved⟩
      · exact .inr (hle.append_lt hlt')
    · rcases hrest with ⟨hle', -⟩ | hlt'
      · exact .inr (hlt.append_le hle')
      · exact .inr (hlt.append_le (.inr hlt'))

/-- What a round counts is at most the text that it is about. -/
theorem printLoop_count {count : σ → Int} {ls : List Lexeme}
    (hstep : ∀ l ∈ ls, ∀ t, l.Gives t → ∀ s, count (step s t).1 ≤ count s + l.text.length)
    (s : σ) (p : PathId) (off : Nat) :
    count (printLoop step s (placed p off ls)).1 ≤ count s + (textOf ls).length := by
  revert hstep s
  refine placed_induction (motive := fun ls toks => (∀ l ∈ ls, ∀ t, l.Gives t → ∀ s,
    count (step s t).1 ≤ count s + l.text.length) → ∀ s,
    count (printLoop step s toks).1 ≤ count s + (textOf ls).length) ?_ ?_ ?_ p off ls
  · intro _ s
    exact Int.le_of_eq (Int.add_zero _).symm
  · intro l ls toks ih hstep s
    have hrest := ih (List.forall_mem_cons.1 hstep).2 s
    rw [textOf_cons, List.length_append]
    push_cast
    omega
  · intro l t ls toks hl ih hstep s
    obtain ⟨hl', hls⟩ := List.forall_mem_cons.1 hstep
    have hround := hl' t hl s
    have hrest := ih hls (step s t).1
    rw [textOf_cons, List.length_append, printLoop]
    push_cast
    omega

end

end Cvise
