import Cvise.ClexScanner

namespace Cvise
set_option autoImplicit true

/-- A piece of a file that one rule reads, a comment with all that its loop reads. -/
structure Lexeme where
  text : Bytes
  action : Action
deriving DecidableEq

/-- How much the comment rule reads after the two bytes that it matches, within one file. -/
def commentLength (prev : UInt8) : Bytes → Nat
  | [] => 0
  | c :: rest => if c = 47 ∧ prev = 42 then 1 else commentLength c rest + 1

def lexemeLength (text : Bytes) : Nat :=
  let n := (matchRule text).1
  if (matchRule text).2 = .comment then n + commentLength 0 (text.drop n) else n

theorem lexemeLength_pos (text : Bytes) : 0 < lexemeLength text := by
  have hpos := matchRule_pos text
  rw [lexemeLength]
  split
  · exact Nat.add_pos_left hpos _
  · exact hpos

theorem commentLength_le (prev : UInt8) (text : Bytes) : commentLength prev text ≤ text.length := by
  induction text generalizing prev with
  | nil => exact Nat.le_refl _
  | cons c text ih =>
    rw [commentLength, List.length_cons]
    split
    · exact Nat.succ_pos _
    · exact Nat.succ_le_succ (ih c)

theorem lexemeLength_le (h : text ≠ []) : lexemeLength text ≤ text.length := by
  have hle := matchRule_le h
  have hbody := commentLength_le 0 (text.drop (matchRule text).1)
  rw [List.length_drop] at hbody
  rw [lexemeLength]
  split
  · omega
  · exact hle

def scanFile (data : Bytes) : List Lexeme :=
  match data with
  | [] => []
  | b :: bs =>
    ⟨(b :: bs).take (lexemeLength (b :: bs)), (matchRule (b :: bs)).2⟩ ::
      scanFile ((b :: bs).drop (lexemeLength (b :: bs)))
termination_by data.length
decreasing_by
  have hpos := lexemeLength_pos (b :: bs)
  rw [List.length_drop]
  exact Nat.sub_lt (Nat.succ_pos _) hpos

def textOf (ls : List Lexeme) : Bytes := ls.flatMap (·.text)

theorem textOf_cons (l : Lexeme) (ls : List Lexeme) : textOf (l :: ls) = l.text ++ textOf ls := rfl

theorem textOf_singleton (l : Lexeme) : textOf [l] = l.text := List.append_nil _

theorem textOf_append (ls ls' : List Lexeme) : textOf (ls ++ ls') = textOf ls ++ textOf ls' :=
  List.flatMap_append

/-- The tokens of a file's lexemes, the first of which starts at `off`. -/
def placed (p : PathId) (off : Nat) : List Lexeme → List Tok
  | [] => []
  | ⟨text, .token kind⟩ :: ls =>
    { str := strdup text, kind := kind, pathId := p, len := text.length, startPos := off } ::
      placed p (off + text.length) ls
  | ⟨text, _⟩ :: ls => placed p (off + text.length) ls

/-- The tokens of the files after the one numbered `p`. -/
def placedAfter (p : PathId) : List Bytes → List Tok
  | [] => []
  | f :: files => placed p.succ 0 (scanFile f) ++ placedAfter p.succ files

namespace Scanner

/-- All the tokens that there will be. -/
def scanned (s : Scanner) : List Tok :=
  s.tokList ++ placed s.pathId s.tokEndPos (scanFile s.rest) ++ placedAfter s.pathId s.stdin

/-- What holds between the rules: a file is open, and nothing follows the last one. -/
structure Ready (s : Scanner) : Prop where
  isOpen : s.yyin.isSome = true
  single : s.pathId = .single → s.stdin = []
  ended : s.pathId = .ended → s.rest = [] ∧ s.stdin = []

end Scanner

theorem scanFile_nil : scanFile [] = [] := by rw [scanFile]

theorem scanFile_cons (h : text ≠ []) : scanFile text =
    ⟨text.take (lexemeLength text), (matchRule text).2⟩ ::
      scanFile (text.drop (lexemeLength text)) := by
  cases text with
  | nil => exact absurd rfl h
  | cons b bs => rw [scanFile]

theorem scanFile_induction {motive : Bytes → Prop} (nil : motive [])
    (cons : ∀ text, text ≠ [] → motive (text.drop (lexemeLength text)) → motive text)
    (text : Bytes) : motive text := by
  induction text using scanFile.induct with
  | case1 => exact nil
  | case2 b bs ih => exact cons (b :: bs) (List.cons_ne_nil _ _) ih

theorem textOf_scanFile (data : Bytes) : textOf (scanFile data) = data := by
  induction data using scanFile_induction with
  | nil => rw [scanFile_nil]; rfl
  | cons text hne ih =>
    rw [scanFile_cons hne]
    show text.take _ ++ textOf (scanFile (text.drop _)) = text
    rw [ih, List.take_append_drop]

theorem Scanner.Ready.wrapped (hs : s.Ready) (hrest : s.rest = []) (h : yywrap s = (true, s₁)) :
    s₁.Ready ∧ s₁.scanned = s.scanned ∧ s₁.tokList = s.scanned := by
  have hstdin : s.stdin = [] := by
    rw [yywrap] at h
    split at h
    · rename_i hp
      exact hs.single hp
    · split at h
      · assumption
      · cases h
  have htoks : s.scanned = s.tokList := by
    rw [Scanner.scanned, hrest, hstdin, scanFile_nil]
    simp [placed, placedAfter]
  obtain rfl := yywrap_end h
  have hscanned : ({ s with pathId := .ended } : Scanner).scanned = s.tokList := by
    show s.tokList ++ placed .ended s.tokEndPos (scanFile s.rest) ++ placedAfter .ended s.stdin = _
    rw [hrest, hstdin, scanFile_nil]
    simp [placed, placedAfter]
  exact ⟨⟨hs.isOpen, fun _ => hstdin, fun _ => ⟨hrest, hstdin⟩⟩, hscanned.trans htoks.symm,
    htoks.symm⟩

theorem Scanner.Ready.opened (hs : s.Ready) (hrest : s.rest = []) (h : yywrap s = (false, s₁)) :
    s₁.Ready ∧ s₁.scanned = s.scanned ∧ ∃ i, s.pathId = .listed i ∧ s₁.pathId = .listed (i + 1) := by
  obtain ⟨f, stdin, hstdin, rfl⟩ := yywrap_eq h
  obtain ⟨i, hi⟩ : ∃ i, s.pathId = .listed i := by
    cases hp : s.pathId with
    | single => cases hstdin.symm.trans (hs.single hp)
    | listed i => exact ⟨i, rfl⟩
    | ended => cases hstdin.symm.trans (hs.ended hp).2
  have hp : (openNext s f stdin).pathId = .listed (i + 1) := by
    rw [openNext, if_pos hs.isOpen, hi]
    rfl
  refine ⟨⟨rfl, fun he => ?_, fun he => ?_⟩, ?_, i, hi, hp⟩
  · cases hp.symm.trans he
  · cases hp.symm.trans he
  · have hsucc : s.pathId.succ = .listed (i + 1) := by rw [hi]; rfl
    rw [Scanner.scanned, Scanner.scanned, hp, hrest, hstdin, scanFile_nil, placedAfter, hsucc]
    simp only [openNext, Scanner.rest, Option.getD_some, placed, List.append_nil, List.append_assoc]

theorem yyin_of_rest {s : Scanner} (h : s.rest = c :: rest) : s.yyin = some (c :: rest) := by
  cases hy : s.yyin with
  | none =>
    rw [Scanner.rest, hy] at h
    cases h
  | some data =>
    rw [Scanner.rest, hy] at h
    exact congrArg some h

theorem Scanner.Ready.input_end (hs : s.Ready) (h : input s = (none, s₁)) :
    s₁.Ready ∧ s₁.scanned = s.scanned := by
  induction s using input.induct with
  | case1 s c rest hr =>
    rw [input, hr] at h
    cases h
  | case2 s hr s₂ hw =>
    rw [input_wrapped hr, hw] at h
    obtain ⟨hready, hscanned, -⟩ := hs.wrapped hr hw
    exact (Prod.mk.inj h).2 ▸ ⟨hready, hscanned⟩
  | case3 s hr s₂ hw ih =>
    rw [input_wrapped hr, hw] at h
    obtain ⟨hready, hscanned, -⟩ := hs.opened hr hw
    obtain ⟨hready₁, hscanned₁⟩ := ih hready h
    exact ⟨hready₁, hscanned₁.trans hscanned⟩

/-- Putting a byte back leaves what is to be scanned, in the file that the byte comes from. -/
theorem Scanner.Ready.input_byte (hs : s.Ready) (h : input s = (some c, s₁)) :
    (unput c s₁).Ready ∧ (unput c s₁).scanned = s.scanned ∧
      ∀ i, s.pathId = .listed i → ∃ j, s₁.pathId = .listed j ∧ i ≤ j := by
  induction s using input.induct with
  | case1 s c' rest hr =>
    rw [input, hr] at h
    obtain ⟨hc, rfl⟩ := Prod.mk.inj h
    have hback : unput c { s with yyin := some rest } = s := by
      rw [unput, ← Option.some.inj hc]
      exact congrArg (fun y => { s with yyin := y }) (yyin_of_rest hr).symm
    rw [hback]
    exact ⟨hs, rfl, fun i hi => ⟨i, hi, Nat.le_refl i⟩⟩
  | case2 s hr s₂ hw =>
    rw [input_wrapped hr, hw] at h
    cases h
  | case3 s hr s₂ hw ih =>
    rw [input_wrapped hr, hw] at h
    obtain ⟨hready, hscanned, i, hi, hi₂⟩ := hs.opened hr hw
    obtain ⟨hready₁, hscanned₁, hpath⟩ := ih hready h
    obtain ⟨j, hj, hle⟩ := hpath (i + 1) hi₂
    refine ⟨hready₁, hscanned₁.trans hscanned, fun k hk => ⟨j, hj, ?_⟩⟩
    have hik : i = k := PathId.listed.inj (hi.symm.trans hk)
    omega

/-- A byte that is read at the end of a file belongs to a later one. -/
theorem Scanner.Ready.input_crossed (hs : s.Ready) (hr : s.rest = [])
    (h : input s = (some c, s₁)) : s₁.pathId ≠ .ended ∧ s₁.pathId ≠ s.pathId := by
  rw [input_wrapped hr] at h
  cases hw : yywrap s with
  | mk ended s₂ =>
    rw [hw] at h
    cases ended with
    | true => cases h
    | false =>
      obtain ⟨hready, -, i, hi, hi₂⟩ := hs.opened hr hw
      obtain ⟨-, -, hpath⟩ := hready.input_byte h
      obtain ⟨j, hj, hle⟩ := hpath (i + 1) hi₂
      rw [hi, hj]
      refine ⟨PathId.noConfusion, fun he => ?_⟩
      have hji : j = i := PathId.listed.inj he
      omega

/-- A comment is read within its file, wherever its loop leaves the scanner. -/
theorem Scanner.Ready.comment {s : Scanner} (hs : s.Ready) (hp : s.pathId ≠ .ended)
    (prev : UInt8) (hr : s.rest = text) :
    (commentLoop s.pathId prev s).Ready ∧
      (commentLoop s.pathId prev s).scanned = (s.advance (commentLength prev text)).scanned := by
  induction text generalizing s prev with
  | nil =>
    have hstay : (s.advance 0).scanned = s.scanned := by
      show s.tokList ++ placed s.pathId (s.tokEndPos + 0) (scanFile (s.rest.drop 0)) ++ _ = _
      rw [List.drop_zero, Nat.add_zero]
      rfl
    rw [commentLength, hstay]
    cases hi : input s with
    | mk c s₁ =>
      cases c with
      | none =>
        rw [commentLoop_end hi]
        exact hs.input_end hi
      | some c =>
        obtain ⟨hready, hscanned, -⟩ := hs.input_byte hi
        obtain ⟨hend, hother⟩ := hs.input_crossed hr hi
        rw [commentLoop_byte hi, if_neg hend, if_pos hother]
        exact ⟨hready, hscanned⟩
  | cons c text ih =>
    have hi : input s = (some c, { s with yyin := some text }) := by rw [input, hr]
    have hready : Scanner.Ready { s with yyin := some text, tokEndPos := s.tokEndPos + 1 } :=
      ⟨rfl, hs.single, fun he => absurd he hp⟩
    rw [commentLoop_byte hi, if_neg hp, if_neg (not_not.2 rfl), commentLength]
    split
    · refine ⟨hready, ?_⟩
      rw [Scanner.advance, hr]
      rfl
    · obtain ⟨hready₁, hscanned⟩ := ih hready hp c rfl
      refine ⟨hready₁, hscanned.trans ?_⟩
      rw [Scanner.advance, Scanner.advance, hr, List.drop_succ_cons]
      show s.tokList ++ placed _ (s.tokEndPos + 1 + _) (scanFile (text.drop _)) ++ _ = _
      rw [Nat.add_assoc, Nat.add_comm 1]
      rfl

theorem Scanner.advance_advance (s : Scanner) (m n : Nat) :
    (s.advance m).advance n = s.advance (m + n) := by
  simp only [Scanner.advance, Scanner.rest, Option.getD_some, List.drop_drop, Nat.add_assoc]

/-- Passing a lexeme that is no token leaves the tokens that there will be. -/
theorem Scanner.advance_scanned {s : Scanner} (hr : s.rest ≠ [])
    (ha : ∀ kind, (matchRule s.rest).2 ≠ .token kind) :
    (s.advance (lexemeLength s.rest)).scanned = s.scanned := by
  have hlen := List.length_take_of_le (lexemeLength_le hr)
  rw [Scanner.scanned, Scanner.scanned, scanFile_cons hr]
  cases hc : (matchRule s.rest).2 with
  | token kind => exact absurd hc (ha kind)
  | comment =>
    simp only [placed, hlen]
    rfl
  | echo =>
    simp only [placed, hlen]
    rfl

theorem Scanner.Ready.rule {s : Scanner} (hs : s.Ready) (hr : s.rest ≠ []) :
    ∃ s₁, scanRule s = some s₁ ∧ s₁.Ready ∧ s₁.scanned = s.scanned := by
  have hp : s.pathId ≠ .ended := fun he => hr (hs.ended he).1
  have hready (n : Nat) : (s.advance n).Ready := ⟨rfl, hs.single, fun he => absurd he hp⟩
  have hlen := List.length_take_of_le (matchRule_le hr)
  rw [scanRule]
  cases ha : (matchRule s.rest).2 with
  | token kind =>
    have hl : lexemeLength s.rest = (matchRule s.rest).1 := by
      rw [lexemeLength, ha, if_neg Action.noConfusion]
    refine ⟨_, if_neg hp, ⟨rfl, hs.single, fun he => absurd he hp⟩, ?_⟩
    rw [Scanner.scanned, Scanner.scanned, scanFile_cons hr, ha, hl, placed]
    simp only [addTok, Scanner.advance, hlen, Nat.add_sub_cancel, List.append_assoc]
    rfl
  | comment =>
    have hl : lexemeLength s.rest = (matchRule s.rest).1 +
        commentLength 0 (s.rest.drop (matchRule s.rest).1) := by
      rw [lexemeLength, if_pos ha]
    obtain ⟨hready₁, hscanned⟩ := (hready (matchRule s.rest).1).comment hp 0 rfl
    refine ⟨_, rfl, hready₁, hscanned.trans ?_⟩
    rw [Scanner.advance_advance]
    exact hl ▸ Scanner.advance_scanned hr fun kind hk => by cases ha.symm.trans hk
  | echo =>
    have hl : lexemeLength s.rest = (matchRule s.rest).1 := by
      rw [lexemeLength, ha, if_neg Action.noConfusion]
    refine ⟨_, rfl, hready _, ?_⟩
    exact hl ▸ Scanner.advance_scanned hr fun kind hk => by cases ha.symm.trans hk

theorem yylex_scanned {s : Scanner} (hs : s.Ready) :
    ∃ s₁, yylex s = some s₁ ∧ s₁.tokList = s.scanned := by
  induction s using yylex.induct with
  | case1 s hr s₁ hw =>
    obtain ⟨-, -, htoks⟩ := hs.wrapped hr hw
    rw [yylex_wrapped hr, hw]
    exact ⟨s₁, rfl, htoks⟩
  | case2 s hr s₁ hw ih =>
    obtain ⟨hready, hscanned, -⟩ := hs.opened hr hw
    obtain ⟨s₂, hlex, htoks⟩ := ih hready
    rw [yylex_wrapped hr, hw]
    exact ⟨s₂, hlex, htoks.trans hscanned⟩
  | case3 s b bs hr hrule =>
    obtain ⟨s₁, hs₁, -⟩ := hs.rule (hr ▸ List.cons_ne_nil b bs)
    cases hrule.symm.trans hs₁
  | case4 s b bs hr s₁ hrule ih =>
    obtain ⟨s₂, hs₂, hready, hscanned⟩ := hs.rule (hr ▸ List.cons_ne_nil b bs)
    obtain rfl := Option.some.inj (hrule.symm.trans hs₂)
    obtain ⟨s₃, hlex, htoks⟩ := ih hready
    rw [yylex_rule hr, hrule]
    exact ⟨s₃, hlex, htoks.trans hscanned⟩

end Cvise
