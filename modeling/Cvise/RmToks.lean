import Cvise.TokenHints

namespace Cvise
set_option autoImplicit true

/-- The loop of `rm_toks`, for the tokens that are left. What it returns is `matched`, which is set
when `started` is, and what it prints. -/
def rmToks (idx nToks : Int) (which : Int) (started : Bool) : List Tok → Bool × Bytes
  | [] => (started, [])
  | t :: toks =>
    let counted := !t.kind.isSpace
    let started := started || (counted && which = idx)
    let which := if counted then which + 1 else which
    let shouldPrint := !started || decide (idx + nToks < which)
    -- Do not consume the file-terminating newline.
    let shouldPrint := shouldPrint || (t.kind = .newline && endsFile t.pathId toks)
    let (matched, printed) := rmToks idx nToks which started toks
    (matched, (if shouldPrint then t.str else []) ++ printed)

structure ClexOutput where
  code : Nat
  stdout : Bytes
deriving DecidableEq

/-- `clex rm-toks-n`, with the index that follows it. It is `none` where an assertion fails. -/
def clexRmToks (nToks idx : Int) (arg : Argument) : Option ClexOutput :=
  if ¬ (0 < nToks ∧ nToks ≤ 1000) then none
  else
    match startScanner arg with
    | none => some ⟨71, []⟩
    | some s => (yylex s).map fun s =>
      let (matched, printed) := rmToks idx nToks 0 false s.tokList
      ⟨if matched then 51 else 71, printed⟩

/-- What a run leaves on stdout. -/
def stdoutOf (out : Option ClexOutput) : Bytes := (out.map (·.stdout)).getD []

def PrintedHint.Covers (h : PrintedHint) (i : Nat) : Prop := h.l ≤ i ∧ i < h.r

instance (h : PrintedHint) (i : Nat) : Decidable (h.Covers i) :=
  inferInstanceAs (Decidable (h.l ≤ i ∧ i < h.r))

/-- A piece of a file, which starts at `off`, without the union of the hints. -/
def deleteHints (hints : List PrintedHint) (off : Nat) (text : Bytes) : Bytes :=
  ((text.zipIdx off).filter fun b => ∀ h ∈ hints, ¬ h.Covers b.2).map Prod.fst

theorem deleteHints_append (hints : List PrintedHint) (off : Nat) (a b : Bytes) :
    deleteHints hints off (a ++ b) =
      deleteHints hints off a ++ deleteHints hints (off + a.length) b := by
  rw [deleteHints, List.zipIdx_append, List.filter_append, List.map_append]
  rfl

theorem mem_zipIdx_bounds {b : UInt8 × Nat} {text : Bytes} (h : b ∈ text.zipIdx off) :
    off ≤ b.2 ∧ b.2 < off + text.length := by
  obtain ⟨c, i⟩ := b
  obtain ⟨hle, hlt, -⟩ := List.mem_zipIdx h
  exact ⟨hle, hlt⟩

theorem deleteHints_kept (h : ∀ g ∈ hints, ∀ i, off ≤ i → i < off + text.length → ¬ g.Covers i) :
    deleteHints hints off text = text := by
  rw [deleteHints, List.filter_eq_self.2, List.zipIdx_map_fst]
  intro b hb
  obtain ⟨hle, hlt⟩ := mem_zipIdx_bounds hb
  exact decide_eq_true fun g hg => h g hg b.2 hle hlt

theorem deleteHints_cut {text : Bytes} (hg : g ∈ hints) (hl : g.l ≤ off)
    (hr : off + text.length ≤ g.r) : deleteHints hints off text = [] := by
  rw [deleteHints, List.filter_eq_nil_iff.2, List.map_nil]
  intro b hb hall
  obtain ⟨hle, hlt⟩ := mem_zipIdx_bounds hb
  exact of_decide_eq_true hall g hg ⟨hl.trans hle, hlt.trans_le hr⟩

theorem deleteHints_passed (h : g.r ≤ off) :
    deleteHints (g :: hints) off text = deleteHints hints off text := by
  rw [deleteHints, deleteHints]
  refine congrArg _ (List.filter_congr fun b hb => ?_)
  have hnot : ¬ g.Covers b.2 := fun hc => by
    have hle := (mem_zipIdx_bounds hb).1
    have hlt := hc.2
    omega
  simp only [List.forall_mem_cons, hnot, not_false_eq_true, true_and]

/-- The lexemes of a file without comments and NUL bytes. -/
def Lexeme.IsPlain (l : Lexeme) : Prop := (∃ kind, l.action = .token kind) ∧ 0 ∉ l.text

theorem isPlain_of_scanFile (hcomment : ∀ l ∈ scanFile data, l.action ≠ .comment)
    (hnul : 0 ∉ data) : ∀ l ∈ scanFile data, l.IsPlain := by
  intro l hl
  constructor
  · cases ha : l.action with
    | token kind => exact ⟨kind, rfl⟩
    | comment => exact absurd ha (hcomment l hl)
    | echo => exact absurd ha (scanFile_ne_echo data l hl)
  · intro h0
    have hin : 0 ∈ textOf (scanFile data) := List.mem_flatMap.2 ⟨l, hl, h0⟩
    rw [textOf_scanFile] at hin
    exact hnul hin

theorem strdup_eq (h : 0 ∉ text) : strdup text = text := by
  have hall : ∀ b ∈ text, decide (b ≠ 0) = true := fun b hb => decide_eq_true fun he => h (he ▸ hb)
  have htake := @List.takeWhile_append_of_pos _ _ text [] hall
  rw [strdup, ← List.append_nil text, htake]
  rfl

/-- The entry of `tok_list` for a lexeme. -/
def tokAt (p : PathId) (off : Nat) (kind : TokKind) (text : Bytes) : Tok :=
  ⟨text, kind, p, -1, text.length, off⟩

theorem placed_plain (p : PathId) (off : Nat) (ls : List Lexeme) {l : Lexeme} (hl : l.IsPlain) : ∃ kind, l.action = .token kind ∧
    placed p off (l :: ls) = tokAt p off kind l.text :: placed p (off + l.text.length) ls := by
  obtain ⟨⟨kind, ha⟩, h0⟩ := hl
  refine ⟨kind, ha, ?_⟩
  rw [placed_token ha, strdup_eq h0]
  rfl

theorem placed_eq_nil (hplain : ∀ l ∈ ls, l.IsPlain) (h : endsFile p (placed p off ls) = true) :
    ls = [] := by
  cases ls with
  | nil => rfl
  | cons l ls =>
    obtain ⟨kind, -, hp⟩ := placed_plain p off ls
      (hplain l List.mem_cons_self)
    rw [hp] at h
    exact absurd rfl (of_decide_eq_true h)

theorem rmToks_token (hk : t.kind.isSpace = false) : rmToks idx n which started (t :: toks) =
    ((rmToks idx n (which + 1) (started || decide (which = idx)) toks).1,
      (if ¬ (started = true ∨ which = idx) ∨ idx + n < which + 1 then t.str else []) ++
        (rmToks idx n (which + 1) (started || decide (which = idx)) toks).2) := by
  have hnewline : t.kind ≠ .newline := by
    intro he
    rw [he] at hk
    cases hk
  simp [rmToks, hk, hnewline]

theorem rmToks_space (hk : t.kind.isSpace = true) : rmToks idx n which started (t :: toks) =
    ((rmToks idx n which started toks).1,
      (if (¬ started = true ∨ idx + n < which) ∨ (t.kind = .newline ∧ endsFile t.pathId toks = true)
        then t.str else []) ++ (rmToks idx n which started toks).2) := by
  simp [rmToks, hk]

theorem rmToks_behind (hplain : ∀ l ∈ ls, l.IsPlain) (h : idx + n < which) (off : Nat) :
    rmToks idx n which true (placed p off ls) = (true, textOf ls) := by
  induction ls generalizing which off with
  | nil => rfl
  | cons l ls ih =>
    obtain ⟨hl, hls⟩ := List.forall_mem_cons.1 hplain
    obtain ⟨kind, -, hp⟩ := placed_plain p off ls hl
    rw [hp, textOf_cons]
    cases hk : kind.isSpace with
    | true =>
      rw [rmToks_space hk, ih hls h]
      simp [h, tokAt]
    | false =>
      rw [rmToks_token hk]
      simp only [Bool.true_or, ih hls (by omega : idx + n < which + 1)]
      simp [show idx + n < which + 1 by omega, tokAt]

/-- The hint that is printed for a token. -/
def hintOf (t : Tok) (toks : List Tok) : PrintedHint :=
  ⟨t.startPos, (eatSpaces t toks).2.startPos + (eatSpaces t toks).2.len,
    (eatSpaces t toks).2.pathId.printed⟩

theorem hintsToks_token (hk : t.kind.isSpace = false) :
    hintsToks 0 (t :: toks) = hintOf t toks :: hintsToks 0 toks := by
  rw [hintsToks_cons, if_neg (Bool.eq_false_iff.1 hk)]
  rfl

theorem hintsToks_pass (hk : t.kind.isSpace = true) :
    hintsToks 0 (t :: toks) = hintsToks 0 toks := by
  rw [hintsToks_cons, if_pos hk]

theorem hintsToks_ge (hplain : ∀ l ∈ ls, l.IsPlain) (off : Nat) :
    ∀ h ∈ hintsToks 0 (placed p off ls), off ≤ h.l := by
  induction ls generalizing off with
  | nil => exact fun h hh => absurd hh List.not_mem_nil
  | cons l ls ih =>
    obtain ⟨hl, hls⟩ := List.forall_mem_cons.1 hplain
    obtain ⟨kind, -, hp⟩ := placed_plain p off ls hl
    have hlater : ∀ h ∈ hintsToks 0 (placed p (off + l.text.length) ls), off ≤ h.l :=
      fun h hh => (Nat.le_add_right _ _).trans (ih hls _ h hh)
    rw [hp]
    cases hk : kind.isSpace with
    | true =>
      rw [hintsToks_pass hk]
      exact hlater
    | false =>
      rw [hintsToks_token hk]
      exact List.forall_mem_cons.2 ⟨Nat.le_refl _, hlater⟩

/-- What is eaten after a token never ends before the token does. -/
theorem eatSpaces_ge (hplain : ∀ l ∈ ls, l.IsPlain) (hp : t.pathId = p)
    (hend : t.startPos + t.len = off) :
    off ≤ (eatSpaces t (placed p off ls)).2.startPos + (eatSpaces t (placed p off ls)).2.len := by
  have hecho : ∀ l ∈ ls, l.action ≠ .echo := by
    intro l hl he
    obtain ⟨⟨kind, ha⟩, -⟩ := hplain l hl
    rw [ha] at he
    cases he
  obtain ⟨gap, rest, -, heaten⟩ := @eatSpaces_placed [] t _ off hecho rfl
  rw [List.append_nil, hp] at heaten
  obtain ⟨-, hlast⟩ | ⟨-, hstop⟩ := heaten.stop
  · rw [hlast, hend]
  · rw [hstop]
    exact Nat.le_add_right _ _

theorem hintOf_ge {text : Bytes} (hplain : ∀ l ∈ ls, l.IsPlain) : off + text.length ≤
    (hintOf (tokAt p off kind text) (placed p (off + text.length) ls)).r :=
  eatSpaces_ge (t := tokAt p off kind text) hplain rfl rfl

theorem deleteHints_own {text : Bytes} (hplain : ∀ l ∈ ls, l.IsPlain) : deleteHints
    (hintOf (tokAt p off kind text) (placed p (off + text.length) ls) :: hints) off text = [] :=
  deleteHints_cut List.mem_cons_self (Nat.le_refl off) (hintOf_ge hplain)

theorem eatSpaces_stop (h : next.kind.isSpace = false ∨
    (next.kind = .newline ∧ endsFile t.pathId toks = true)) :
    eatSpaces t (next :: toks) = (0, t) := by
  rw [eatSpaces]
  rcases h with hk | ⟨hk, hends⟩
  · simp [hk]
  · simp [hk, hends]

theorem eatSpaces_next (hk : next.kind.isSpace = true) (hp : next.pathId = t.pathId)
    (hfinal : ¬ (next.kind = .newline ∧ endsFile t.pathId toks = true)) :
    (eatSpaces t (next :: toks)).2 = (eatSpaces next toks).2 := by
  rw [eatSpaces, if_pos (by simp [hk, hp]), if_neg (by simpa using hfinal)]

/-- Within the window: `prev` is the last token that was passed, `g` the hint of the last one that
was removed, and `left` tokens are still to be removed. -/
theorem rmToks_within (prev : Tok) {idx n which : Int} (hplain : ∀ l ∈ ls, l.IsPlain) (off : Nat)
    (hpath : prev.pathId = p) (hend : prev.startPos + prev.len = off)
    (hwhich : which + (left : Nat) = idx + n) (hl : g.l ≤ off)
    (hr : g.r = (eatSpaces prev (placed p off ls)).2.startPos +
      (eatSpaces prev (placed p off ls)).2.len) :
    rmToks idx n which true (placed p off ls) =
      (true, deleteHints (g :: (hintsToks 0 (placed p off ls)).take left) off (textOf ls)) := by
  induction ls generalizing prev which left g off with
  | nil => rfl
  | cons l ls ih =>
    obtain ⟨hlp, hls⟩ := List.forall_mem_cons.1 hplain
    obtain ⟨kind, -, hp⟩ := placed_plain p off ls hlp
    rw [hp] at hr ⊢
    rw [textOf_cons, deleteHints_append]
    cases hk : kind.isSpace with
    | true =>
      rw [rmToks_space hk, hintsToks_pass hk]
      by_cases hfinal : kind = .newline ∧ endsFile p (placed p (off + l.text.length) ls) = true
      · -- The newline at the end of the file stays, and no hint takes it in.
        obtain rfl := placed_eq_nil hls hfinal.2
        rw [eatSpaces_stop (.inr ⟨hfinal.1, hpath ▸ hfinal.2⟩)] at hr
        have hgr : g.r = off := hr.trans hend
        have hnil : (hintsToks 0 (placed p (off + l.text.length) [])).take left = [] := List.take_nil
        rw [hnil, deleteHints_passed hgr.le, deleteHints_kept (by simp)]
        simp [rmToks, placed, tokAt, hfinal.1, endsFile, textOf, deleteHints]
      · rw [eatSpaces_next hk hpath.symm (hpath ▸ hfinal)] at hr
        have hgr : off + l.text.length ≤ g.r := hr ▸ hintOf_ge hls
        have hlt : ¬ idx + n < which := by omega
        rw [ih (tokAt p off kind l.text) hls (off + l.text.length) rfl rfl hwhich (by omega) hr,
          deleteHints_cut List.mem_cons_self hl hgr]
        rw [if_neg (by simpa [tokAt, hlt] using hfinal)]
    | false =>
      rw [eatSpaces_stop (.inl hk)] at hr
      have hgr : g.r = off := hr.trans hend
      have hpassed : g.r ≤ off + l.text.length := hgr.le.trans (Nat.le_add_right _ _)
      rw [rmToks_token hk, hintsToks_token hk, deleteHints_passed hgr.le,
        deleteHints_passed hpassed]
      rw [Bool.true_or]
      cases left with
      | zero =>
        have hlt : idx + n < which + 1 := by omega
        rw [rmToks_behind hls hlt, List.take_zero, deleteHints_kept (by simp),
          deleteHints_kept (by simp), if_pos (.inr hlt)]
        rfl
      | succ left =>
        have hrest := ih (g := hintOf (tokAt p off kind l.text) (placed p (off + l.text.length) ls))
          (tokAt p off kind l.text) hls (off + l.text.length) rfl rfl
          (by omega : which + 1 + (left : Int) = idx + n) (Nat.le_add_right off _) rfl
        have hin : ¬(¬(true = true ∨ which = idx) ∨ idx + n < which + 1) := fun h =>
          h.elim (fun h => h (.inl rfl)) fun h => by omega
        rw [List.take_succ_cons, deleteHints_own hls, hrest, if_neg hin]

/-- Before the window: `skip` tokens are still to be kept. -/
theorem rmToks_before (p : PathId) {idx which : Int} {n : Nat} (hplain : ∀ l ∈ ls, l.IsPlain) (off : Nat)
    (hn : 0 < n) (hwhich : which + (skip : Nat) = idx)
    (hcount : skip + n ≤ (hintsToks 0 (placed p off ls)).length) :
    rmToks idx n which false (placed p off ls) =
      (true, deleteHints (((hintsToks 0 (placed p off ls)).drop skip).take n) off (textOf ls)) := by
  induction ls generalizing which skip off with
  | nil =>
    have hle : skip + n ≤ 0 := hcount
    omega
  | cons l ls ih =>
    obtain ⟨hlp, hls⟩ := List.forall_mem_cons.1 hplain
    obtain ⟨kind, -, hp⟩ := placed_plain p off ls hlp
    have hkept (skip : Nat) : deleteHints (((hintsToks 0 (placed p (off + l.text.length) ls)).drop
        skip).take n) off l.text = l.text := by
      refine deleteHints_kept fun h hh i _ hlt hc => ?_
      have hle := hintsToks_ge hls _ h (List.mem_of_mem_drop (List.mem_of_mem_take hh))
      exact absurd (hle.trans hc.1) (Nat.not_le.2 hlt)
    rw [hp] at hcount ⊢
    rw [textOf_cons, deleteHints_append]
    cases hk : kind.isSpace with
    | true =>
      rw [hintsToks_pass hk] at hcount ⊢
      rw [rmToks_space hk, hkept, ih hls _ hwhich hcount]
      simp [tokAt]
    | false =>
      rw [hintsToks_token hk] at hcount ⊢
      rw [List.length_cons] at hcount
      rw [rmToks_token hk]
      cases skip with
      | succ skip =>
        have hne : ¬ which = idx := by omega
        rw [List.drop_succ_cons, hkept]
        rw [Bool.false_or, decide_eq_false hne, if_pos (.inl (by simp [hne])),
          ih hls (off + l.text.length) (by omega : which + 1 + (skip : Int) = idx) (by omega)]
        rfl
      | zero =>
        obtain ⟨left, rfl⟩ : ∃ left, n = left + 1 := ⟨n - 1, by omega⟩
        obtain rfl : which = idx := by omega
        have hrest := rmToks_within (p := p) (tokAt p off kind l.text)
          (g := hintOf (tokAt p off kind l.text) (placed p (off + l.text.length) ls)) hls
          (off + l.text.length) rfl rfl
          (by omega : which + 1 + (left : Int) = which + ((left + 1 : Nat) : Int))
          (Nat.le_add_right off _) rfl
        have hin : ¬(¬(false = true ∨ which = which) ∨
            which + ((left + 1 : Nat) : Int) < which + 1) := fun h =>
          h.elim (fun h => h (.inr rfl)) fun h => by omega
        rw [List.drop_zero, List.take_succ_cons, deleteHints_own hls, Bool.false_or,
          decide_eq_true rfl, hrest, if_neg hin]

theorem clexHintsToks_file (data : Bytes) :
    clexHintsToks (.file data) = some ⟨51, hintsToks 0 (placed .single 0 (scanFile data))⟩ := by
  have hready : Scanner.Ready { yyin := some data, pathId := .single, stdin := [] } :=
    ⟨rfl, fun _ => rfl, PathId.noConfusion⟩
  obtain ⟨s, hlex, htoks⟩ := yylex_scanned hready
  rw [clexHintsToks, startScanner]
  simp only [hlex, Option.map_some, htoks, Scanner.scanned, placedAfter, List.nil_append,
    List.append_nil, Scanner.rest, Option.getD_some]

theorem clexRmToks_file (hn : 0 < n) (hlimit : n ≤ 1000) :
    clexRmToks n idx (.file data) =
      some ⟨if (rmToks idx n 0 false (placed .single 0 (scanFile data))).1 then 51 else 71,
        (rmToks idx n 0 false (placed .single 0 (scanFile data))).2⟩ := by
  have hready : Scanner.Ready { yyin := some data, pathId := .single, stdin := [] } :=
    ⟨rfl, fun _ => rfl, PathId.noConfusion⟩
  obtain ⟨s, hlex, htoks⟩ := yylex_scanned hready
  rw [clexRmToks, if_neg (not_not.2 ⟨hn, hlimit⟩), startScanner]
  simp only [hlex, Option.map_some, htoks, Scanner.scanned, placedAfter, List.nil_append,
    List.append_nil, Scanner.rest, Option.getD_some]

/-- What the removal of a window prints is the file without the union of the window's hints. -/
def RemoversAgree (data : Bytes) (idx n : Nat) : Prop :=
  ∃ hints, clexHintsToks (.file data) = some ⟨51, hints⟩ ∧
    stdoutOf (clexRmToks n idx (.file data)) = deleteHints ((hints.drop idx).take n) 0 data

theorem length_tokens_file (data : Bytes) : (Argument.file data).tokens.length =
    (hintsToks 0 (placed .single 0 (scanFile data))).length := by
  have hlen := (hintsToks_tokens (.file data)).length_eq
  simpa only [Argument.files, List.flatMap_cons, List.flatMap_nil, List.append_nil] using hlen

/-- The two token removers agree on every window that the old one takes. -/
theorem removers_agree (hcomment : ∀ l ∈ scanFile data, l.action ≠ .comment) (hnul : 0 ∉ data)
    (hn : 0 < n) (hlimit : n ≤ 1000)
    (hcount : idx + n ≤ (Argument.file data).tokens.length) : RemoversAgree data idx n := by
  have hplain := isPlain_of_scanFile hcomment hnul
  have hwindow := rmToks_before .single hplain 0 hn (Int.zero_add (idx : Int))
    (length_tokens_file data ▸ hcount)
  refine ⟨_, clexHintsToks_file data, ?_⟩
  rw [clexRmToks_file (by omega) (by omega), hwindow, textOf_scanFile]
  rfl

theorem removers_agree_blank : RemoversAgree [97, 32, 98, 10] 0 1 :=
  removers_agree (by decide +kernel) (by decide) Nat.one_pos (by decide) (by decide +kernel)

theorem matchRule_semicolons (h : ∀ b ∈ text, b = 59) (hne : text ≠ []) : (matchRule text).1 = 1 ∧
    ∃ kind, (matchRule text).2 = .token kind ∧ kind.isSpace = false := by
  have hrules : ∀ r ∈ clexRules, r.1.endsIn 59 = true → r.1.isSat = true ∧
      (r.2 = .token .op ∨ r.2 = .token .unknown) := by
    decide +kernel
  obtain ⟨p, hp, hmem⟩ := matchRule_mem hne
  have hlen := List.length_take_of_le (matchRule_le hne)
  have hpos := matchRule_pos text
  obtain ⟨t, b, ht⟩ := (List.eq_nil_or_concat' (text.take (matchRule text).1)).resolve_left
    fun he => by rw [he, List.length_nil] at hlen; omega
  have hb : b = 59 := h b (List.mem_of_mem_take (i := (matchRule text).1) (ht ▸ by simp))
  have hends : p.endsIn 59 = true := Pattern.endsIn_of_mem (hb ▸ ht ▸ hmem)
  obtain ⟨hsat, ha⟩ := hrules _ hp hends
  obtain ⟨a, hone⟩ := Pattern.eq_singleton_of_isSat hsat hmem
  refine ⟨by rw [← hlen, hone]; rfl, ?_⟩
  rcases ha with ha | ha
  · exact ⟨.op, ha, rfl⟩
  · exact ⟨.unknown, ha, rfl⟩

theorem scanFile_semicolons (h : ∀ b ∈ text, b = 59) : ∀ l ∈ scanFile text, ∃ kind,
    kind.isSpace = false ∧ l = ⟨[59], .token kind⟩ := by
  induction text using scanFile_induction with
  | nil => exact fun l hl => absurd (scanFile_nil ▸ hl) List.not_mem_nil
  | cons text hne ih =>
    obtain ⟨hone, kind, ha, hkind⟩ := matchRule_semicolons h hne
    have hlen : lexemeLength text = 1 := by
      rw [lexemeLength, ha, if_neg Action.noConfusion]
      exact hone
    rw [hlen] at ih
    rw [scanFile_cons hne, hlen, ha]
    refine List.forall_mem_cons.2 ⟨⟨kind, hkind, ?_⟩, ih fun b hb => h b (List.mem_of_mem_drop hb)⟩
    obtain ⟨b, bs, rfl⟩ := List.exists_cons_of_ne_nil hne
    rw [h b List.mem_cons_self]
    rfl

theorem length_tokensFrom (before : List Lexeme)
    (h : ∀ l ∈ ls, ∃ kind, kind.isSpace = false ∧ l = ⟨[59], .token kind⟩) :
    (tokensFrom p before ls).length = (textOf ls).length := by
  induction ls generalizing before with
  | nil => rfl
  | cons l ls ih =>
    obtain ⟨⟨kind, hk, rfl⟩, hls⟩ := List.forall_mem_cons.1 h
    rw [tokensFrom_token rfl hk, List.length_cons, ih _ hls, textOf_cons, List.length_append,
      Nat.add_comm]
    rfl

/-- A file of more tokens than the old remover takes at a time. -/
theorem long_window_refused : ¬ ∀ (data : Bytes) (idx n : Nat),
    (∀ l ∈ scanFile data, l.action ≠ .comment) → 0 ∉ data → 0 < n →
      idx + n ≤ (Argument.file data).tokens.length → RemoversAgree data idx n := by
  intro h
  have hsemis : ∀ b ∈ List.replicate 1002 (59 : UInt8), b = 59 := fun b => List.eq_of_mem_replicate
  have hscan := scanFile_semicolons hsemis
  have hplain : ∀ l ∈ scanFile (List.replicate 1002 59), l.IsPlain := by
    intro l hl
    obtain ⟨kind, -, rfl⟩ := hscan l hl
    exact ⟨⟨kind, rfl⟩, fun h0 => absurd (List.mem_singleton.1 h0) (by decide)⟩
  have hcount : (Argument.file (List.replicate 1002 59)).tokens.length = 1002 := by
    rw [Argument.tokens, Argument.files, List.flatMap_cons, List.flatMap_nil, List.append_nil,
      length_tokensFrom [] hscan, textOf_scanFile, List.length_replicate]
  obtain ⟨hints, hhints, hout⟩ := h (List.replicate 1002 59) 1 1001
    (fun l hl he => by obtain ⟨⟨kind, ha⟩, -⟩ := hplain l hl; cases ha.symm.trans he)
    (fun h0 => absurd (hsemis 0 h0) (by decide)) (by omega) hcount.ge
  have hrefused : stdoutOf (clexRmToks (1001 : Nat) (1 : Nat) (.file (List.replicate 1002 59))) =
      [] := rfl
  -- The first semicolon is before the window.
  have hkept : deleteHints ((hints.drop 1).take 1001) 0 [59] = [59] := by
    refine deleteHints_kept fun g hg i _ hi hc => ?_
    have hne : scanFile (List.replicate 1002 59) ≠ [] := fun he => by
      have htext := textOf_scanFile (List.replicate 1002 59)
      rw [he] at htext
      cases htext
    obtain ⟨l, ls, hls⟩ := List.exists_cons_of_ne_nil hne
    rw [hls] at hscan hplain
    obtain ⟨kind, hk, rfl⟩ := hscan l List.mem_cons_self
    rw [clexHintsToks_file, hls, placed_token rfl, hintsToks_token hk] at hhints
    obtain rfl := (ClexExit.mk.inj (Option.some.inj hhints)).2
    have hge := hintsToks_ge (fun l hl => hplain l (List.mem_cons_of_mem _ hl)) 1 g
      (List.mem_of_mem_take hg)
    exact absurd (hge.trans hc.1) (Nat.not_le.2 hi)
  rw [hrefused, List.replicate_succ, ← List.singleton_append, deleteHints_append, hkept] at hout
  cases hout

end Cvise
