import Cvise.ClexLexemes

namespace Cvise
set_option autoImplicit true

def TokKind.isSpace (kind : TokKind) : Bool := kind = .ws || kind = .newline

/-- No token of the same file comes next. -/
def endsFile (p : PathId) : List Tok → Bool
  | [] => true
  | next :: _ => next.pathId ≠ p

/-- The loop that eats the spaces after a token: how many, and the last token eaten. -/
def eatSpaces (t : Tok) : List Tok → Nat × Tok
  | [] => (0, t)
  | next :: toks =>
    if next.kind.isSpace && next.pathId = t.pathId then
      -- Do not consume the file-terminating newline.
      if next.kind = .newline && endsFile t.pathId toks then (0, t)
      else ((eatSpaces next toks).1 + 1, (eatSpaces next toks).2)
    else (0, t)

/-- The numbers of one line of the output; there is no `p` for the file of the command line. -/
structure PrintedHint where
  l : Nat
  r : Nat
  p : Option Nat
deriving DecidableEq

def PathId.printed : PathId → Option Nat
  | single => none
  | listed i => some i
  | ended => some 2147483647

/-- `hints_toks`, for the tokens that are left when the first ones are to be passed over. -/
def hintsToks : Nat → List Tok → List PrintedHint
  | _, [] => []
  | skip + 1, _ :: toks => hintsToks skip toks
  | 0, t :: toks =>
    if t.kind.isSpace then hintsToks 0 toks
    else if t.kind = .newline && endsFile t.pathId toks then hintsToks 0 toks
    else
      let (n, last) := eatSpaces t toks
      ⟨t.startPos, last.startPos + last.len, last.pathId.printed⟩ :: hintsToks n toks

/-- The third argument: a file, or two dashes, with the contents of the files listed on stdin. -/
inductive Argument where
  | file (data : Bytes)
  | list (files : List Bytes)
deriving DecidableEq

structure ClexExit where
  code : Nat
  hints : List PrintedHint
deriving DecidableEq

/-- Opens the first file. Nothing is sent to stdin when the file is an argument. -/
def startScanner : Argument → Option Scanner
  | .file data => some { yyin := some data, pathId := .single, stdin := [] }
  | .list files =>
    match yywrap { yyin := none, pathId := .listed 0, stdin := files } with
    | (true, _) => none
    | (false, s) => some s

/-- The token list that the mode works on; there is none when no file was opened. -/
def clexTokens (arg : Argument) : Option (List Tok) :=
  match startScanner arg with
  | none => some []
  | some s => (yylex s).map (·.tokList)

/-- `clex hints-toks`. -/
def clexHintsToks (arg : Argument) : Option ClexExit :=
  match startScanner arg with
  | none => some ⟨71, []⟩
  | some s => (yylex s).map fun s => ⟨51, hintsToks 0 s.tokList⟩

/-- The input files, with the `path_id` that each is read under. -/
def Argument.files : Argument → List (PathId × Bytes)
  | .file data => [(.single, data)]
  | .list files => files.zipIdx.map fun f => (.listed f.2, f.1)

theorem placedAfter_listed (i : Nat) (files : List Bytes) : placedAfter (.listed i) files =
    (files.zipIdx (i + 1)).flatMap fun f => placed (.listed f.2) 0 (scanFile f.1) := by
  induction files generalizing i with
  | nil => rfl
  | cons f files ih =>
    rw [placedAfter, List.zipIdx_cons, List.flatMap_cons]
    exact congrArg _ (ih (i + 1))

theorem clexTokens_eq (arg : Argument) : clexTokens arg =
    some (arg.files.flatMap fun f => placed f.1 0 (scanFile f.2)) := by
  cases arg with
  | file data =>
    have hready : Scanner.Ready { yyin := some data, pathId := .single, stdin := [] } :=
      ⟨rfl, fun _ => rfl, PathId.noConfusion⟩
    obtain ⟨s, hlex, htoks⟩ := yylex_scanned hready
    rw [clexTokens, startScanner]
    simp only [hlex, Option.map_some, htoks, Scanner.scanned, placedAfter, List.nil_append,
      Argument.files, List.flatMap_cons, List.flatMap_nil, Scanner.rest, Option.getD_some]
  | list files =>
    cases files with
    | nil => rfl
    | cons f files =>
      have hready : Scanner.Ready { yyin := some f, pathId := .listed 0, stdin := files } :=
        ⟨rfl, PathId.noConfusion, PathId.noConfusion⟩
      obtain ⟨s, hlex, htoks⟩ := yylex_scanned hready
      have hstart : startScanner (.list (f :: files)) =
          some { yyin := some f, pathId := .listed 0, stdin := files } := rfl
      rw [clexTokens, hstart]
      simp only [hlex, Option.map_some, htoks, Scanner.scanned, placedAfter_listed, List.nil_append,
        Argument.files, List.zipIdx_cons, List.map_cons, List.flatMap_cons, Scanner.rest,
        Option.getD_some, List.flatMap_map]

theorem hintsToks_eaten (t : Tok) (toks : List Tok) :
    hintsToks (eatSpaces t toks).1 toks = hintsToks 0 toks := by
  induction toks generalizing t with
  | nil => rfl
  | cons next toks ih =>
    rw [eatSpaces]
    split
    · rename_i hspace
      split
      · rfl
      · have hkind := (Bool.and_eq_true_iff.1 hspace).1
        rw [hintsToks, ih, hintsToks, if_pos hkind]
    · rfl

theorem hintsToks_cons (t : Tok) (toks : List Tok) : hintsToks 0 (t :: toks) =
    if t.kind.isSpace then hintsToks 0 toks
    else
      ⟨t.startPos, (eatSpaces t toks).2.startPos + (eatSpaces t toks).2.len,
        (eatSpaces t toks).2.pathId.printed⟩ :: hintsToks 0 toks := by
  rw [hintsToks]
  by_cases hspace : t.kind.isSpace = true
  · rw [if_pos hspace, if_pos hspace]
  · have hnewline : ¬ (decide (t.kind = .newline) && endsFile t.pathId toks) = true := by
      intro h
      have hk := of_decide_eq_true (Bool.and_eq_true_iff.1 h).1
      rw [hk] at hspace
      exact hspace rfl
    rw [if_neg hspace, if_neg hspace, if_neg hnewline]
    show _ :: hintsToks (eatSpaces t toks).1 toks = _
    rw [hintsToks_eaten]

/-- What a hint may take in besides its token. -/
def Lexeme.isFiller (l : Lexeme) : Bool :=
  match l.action with
  | .token kind => kind.isSpace
  | .comment => true
  | .echo => false

/-- The lexemes that are eaten after a token, and those that are not. -/
structure Eaten (t last : Tok) (off : Nat) (gap rest : List Lexeme) : Prop where
  filler : ∀ g ∈ gap, g.isFiller = true
  path : last.pathId = t.pathId
  stop : (gap = [] ∧ last = t) ∨
    (gap ≠ [] ∧ last.startPos + last.len = off + (textOf gap).length)
  /-- A comment or a newline that comes last in the file is left. -/
  final : ∀ l ∈ (gap ++ rest).getLast?, l.action = .comment ∨ l.action = .token .newline → rest ≠ []

namespace Eaten

theorem none (h : ∀ l ∈ rest.getLast?, l.action = .comment ∨ l.action = .token .newline →
    rest ≠ []) : Eaten t t off [] rest :=
  ⟨fun _ hg => absurd hg List.not_mem_nil, rfl, .inl ⟨rfl, rfl⟩, h⟩

/-- A comment is taken in when a space after it is eaten. -/
theorem comment (h : Eaten t last (off + l.text.length) gap rest) (hl : l.action = .comment) :
    ∃ gap' rest', l :: (gap ++ rest) = gap' ++ rest' ∧ Eaten t last off gap' rest' := by
  by_cases hgap : gap = []
  · subst hgap
    obtain ⟨-, rfl⟩ | ⟨hne, -⟩ := h.stop
    · exact ⟨[], l :: rest, rfl, none fun _ _ _ => List.cons_ne_nil _ _⟩
    · exact absurd rfl hne
  · obtain ⟨he, -⟩ | ⟨-, hstop⟩ := h.stop
    · exact absurd he hgap
    refine ⟨l :: gap, rest, rfl, ?_, h.path, .inr ⟨List.cons_ne_nil _ _, ?_⟩, ?_⟩
    · exact List.forall_mem_cons.2 ⟨by rw [Lexeme.isFiller, hl], h.filler⟩
    · rw [hstop, textOf_cons, List.length_append, Nat.add_assoc]
    · have hne : gap ++ rest ≠ [] := fun he => hgap (List.append_eq_nil_iff.1 he).1
      rw [List.cons_append, List.getLast?_cons_of_ne_nil hne]
      exact h.final

theorem space (h : Eaten next last (off + l.text.length) gap rest)
    (hl : l.action = .token next.kind) (hspace : next.kind.isSpace = true)
    (hp : next.pathId = t.pathId) (hend : next.startPos + next.len = off + l.text.length)
    (hlast : gap ++ rest = [] → next.kind ≠ .newline) : Eaten t last off (l :: gap) rest := by
  refine ⟨?_, h.path.trans hp, .inr ⟨List.cons_ne_nil _ _, ?_⟩, ?_⟩
  · exact List.forall_mem_cons.2 ⟨by rw [Lexeme.isFiller, hl]; exact hspace, h.filler⟩
  · rw [textOf_cons, List.length_append, ← Nat.add_assoc, ← hend]
    obtain ⟨rfl, rfl⟩ | ⟨-, hstop⟩ := h.stop
    · rfl
    · rw [hstop, hend]
  · by_cases hne : gap ++ rest = []
    · intro x hx hax
      rw [List.cons_append, hne] at hx
      have hxl : l = x := Option.some.inj hx
      rw [← hxl, hl] at hax
      rcases hax with ha | ha
      · cases ha
      · exact absurd (Action.token.inj ha) (hlast hne)
    · rw [List.cons_append, List.getLast?_cons_of_ne_nil hne]
      exact h.final

end Eaten

theorem eatSpaces_none (h : endsFile t.pathId toks = true) : eatSpaces t toks = (0, t) := by
  cases toks with
  | nil => rfl
  | cons next toks =>
    have hp : next.pathId ≠ t.pathId := of_decide_eq_true h
    rw [eatSpaces, if_neg (by simp [hp])]

theorem eatSpaces_placed {ls : List Lexeme} (off : Nat) (hecho : ∀ l ∈ ls, l.action ≠ .echo)
    (hend : endsFile t.pathId toks = true) : ∃ gap rest, ls = gap ++ rest ∧
      Eaten t (eatSpaces t (placed t.pathId off ls ++ toks)).2 off gap rest := by
  induction ls generalizing t off with
  | nil =>
    refine ⟨[], [], rfl, ?_⟩
    rw [placed, List.nil_append, eatSpaces_none hend]
    exact .none (fun _ hl => by cases hl)
  | cons l ls ih =>
    obtain ⟨hl, hls⟩ := List.forall_mem_cons.1 hecho
    obtain ⟨text, action⟩ := l
    cases action with
    | echo => exact absurd rfl hl
    | comment =>
      obtain ⟨gap, rest, he, heaten⟩ := ih (t := t) (off + text.length) hls hend
      have hplaced : placed t.pathId off (⟨text, .comment⟩ :: ls) =
          placed t.pathId (off + text.length) ls := by simp only [placed]
      obtain ⟨gap', rest', he', heaten'⟩ := Eaten.comment (l := ⟨text, .comment⟩) heaten rfl
      rw [hplaced]
      exact ⟨gap', rest', by rw [he, he'], heaten'⟩
    | token kind =>
      have hstop : Eaten t t off [] (⟨text, .token kind⟩ :: ls) :=
        .none fun _ _ _ => List.cons_ne_nil _ _
      rw [placed, List.cons_append, eatSpaces]
      split
      · rename_i hspace
        split
        · exact ⟨[], _, rfl, hstop⟩
        · rename_i hnewline
          obtain ⟨hspace, hp⟩ := Bool.and_eq_true_iff.1 hspace
          obtain ⟨gap, rest, he, heaten⟩ :=
            ih (t := ⟨strdup text, kind, t.pathId, -1, text.length, off⟩) (off + text.length) hls hend
          refine ⟨⟨text, .token kind⟩ :: gap, rest, by rw [he]; rfl, ?_⟩
          refine Eaten.space (l := ⟨text, .token kind⟩) heaten rfl hspace rfl rfl fun hnil hk => ?_
          rw [← he] at hnil
          apply hnewline
          rw [hnil, placed, List.nil_append, Bool.and_eq_true_iff]
          exact ⟨decide_eq_true hk, hend⟩
      · exact ⟨[], _, rfl, hstop⟩

end Cvise
