import Cvise.HintsToks
import Cvise.LineSplice
import Mathlib.Data.List.Sigma

namespace Cvise
set_option autoImplicit true

/-- A token that is no blank or newline, between what its file has before and after it. -/
structure TokenAt where
  path : PathId
  kind : TokKind
  before : List Lexeme
  text : Bytes
  after : List Lexeme

/-- The entry of `tok_list`, with the offset of the token in its file. -/
def TokenAt.tok (t : TokenAt) : Tok where
  str := strdup t.text
  kind := t.kind
  pathId := t.path
  len := t.text.length
  startPos := (textOf t.before).length

def tokensFrom (p : PathId) (before : List Lexeme) : List Lexeme → List TokenAt
  | [] => []
  | ⟨text, .token kind⟩ :: ls =>
    if kind.isSpace then tokensFrom p (before ++ [⟨text, .token kind⟩]) ls
    else ⟨p, kind, before, text, ls⟩ :: tokensFrom p (before ++ [⟨text, .token kind⟩]) ls
  | l :: ls => tokensFrom p (before ++ [l]) ls

/-- The tokens of the input that are no blanks or newlines, in order. -/
def Argument.tokens (arg : Argument) : List TokenAt :=
  arg.files.flatMap fun f => tokensFrom f.1 [] (scanFile f.2)

/-- The hint names the file of the token, starts where the token does, and ends behind what it
takes in after the token. -/
structure HintFor (t : TokenAt) (h : PrintedHint) : Prop where
  path : h.p = t.path.printed
  start : h.l = (textOf t.before).length
  covers : ∃ gap rest, t.after = gap ++ rest ∧ (∀ g ∈ gap, g.isFiller = true) ∧
    h.r = h.l + t.text.length + (textOf gap).length

structure TokenHints (arg : Argument) (hints : List PrintedHint) : Prop where
  located : ∀ t ∈ arg.tokens, ∃ f ∈ arg.files, t.path = f.1 ∧
    f.2 = textOf t.before ++ t.text ++ textOf t.after
  oneToOne : List.Forall₂ HintFor arg.tokens hints
  inside : ∀ h ∈ hints, ∃ f ∈ arg.files, h.p = f.1.printed ∧ h.l < h.r ∧ h.r ≤ f.2.length
  ascending : hints.Pairwise fun g h => g.p = h.p → g.r ≤ h.l
  newline : ∀ f ∈ arg.files, ∀ h ∈ hints, h.p = f.1.printed → ∀ text, f.2 = text ++ [10] →
    ¬ (h.l ≤ text.length ∧ text.length < h.r)

theorem Lexeme.space_or_token (l : Lexeme) :
    (∀ kind, l.action = .token kind → kind.isSpace = true) ∨
      ∃ kind, l.action = .token kind ∧ kind.isSpace = false := by
  cases ha : l.action with
  | token kind =>
    cases hk : kind.isSpace with
    | true => exact .inl fun kind' he => Action.token.inj he ▸ hk
    | false => exact .inr ⟨kind, rfl, hk⟩
  | comment => exact .inl fun _ he => nomatch he
  | echo => exact .inl fun _ he => nomatch he

theorem tokensFrom_space (h : ∀ kind, l.action = .token kind → kind.isSpace = true) :
    tokensFrom p before (l :: ls) = tokensFrom p (before ++ [l]) ls := by
  obtain ⟨text, action⟩ := l
  cases action with
  | token kind => rw [tokensFrom, if_pos (h kind rfl)]
  | comment => simp only [tokensFrom]
  | echo => simp only [tokensFrom]

theorem tokensFrom_token {l : Lexeme} (ha : l.action = .token kind) (hk : kind.isSpace = false) :
    tokensFrom p before (l :: ls) =
      ⟨p, kind, before, l.text, ls⟩ :: tokensFrom p (before ++ [l]) ls := by
  obtain ⟨text, action⟩ := l
  obtain rfl : action = .token kind := ha
  rw [tokensFrom, if_neg (Bool.eq_false_iff.1 hk)]

theorem mem_tokensFrom (h : t ∈ tokensFrom p before ls) : t.path = p ∧ t.kind.isSpace = false ∧
    ∃ mid, t.before = before ++ mid ∧ ls = mid ++ ⟨t.text, .token t.kind⟩ :: t.after := by
  induction ls generalizing before with
  | nil => cases h
  | cons l ls ih =>
    have hlater (h : t ∈ tokensFrom p (before ++ [l]) ls) : t.path = p ∧ t.kind.isSpace = false ∧
        ∃ mid, t.before = before ++ mid ∧ l :: ls = mid ++ ⟨t.text, .token t.kind⟩ :: t.after := by
      obtain ⟨hp, hkind, mid, hbefore, hls⟩ := ih h
      exact ⟨hp, hkind, l :: mid, by rw [hbefore, List.append_assoc]; rfl, by rw [hls]; rfl⟩
    rcases l.space_or_token with hl | ⟨kind, ha, hk⟩
    · exact hlater (tokensFrom_space hl ▸ h)
    · rw [tokensFrom_token ha hk] at h
      rcases List.mem_cons.1 h with rfl | h
      · exact ⟨rfl, hk, [], (List.append_nil _).symm, by rw [← ha]; rfl⟩
      · exact hlater h

theorem tokensFrom_mem (before : List Lexeme) (hk : kind.isSpace = false)
    (h : ls = mid ++ ⟨text, .token kind⟩ :: after) :
    ⟨p, kind, before ++ mid, text, after⟩ ∈ tokensFrom p before ls := by
  induction mid generalizing before ls with
  | nil =>
    subst h
    rw [List.nil_append, List.append_nil, tokensFrom_token rfl hk]
    exact List.mem_cons_self
  | cons l mid ih =>
    subst h
    have hin := ih (before ++ [l]) rfl
    rw [List.append_assoc, List.singleton_append] at hin
    rw [List.cons_append]
    rcases l.space_or_token with hl | ⟨kind', ha, hk'⟩
    · rw [tokensFrom_space hl]
      exact hin
    · rw [tokensFrom_token ha hk']
      exact List.mem_cons_of_mem _ hin

/-- A later token of the same file lies behind the earlier one. -/
def TokenAt.Precedes (t u : TokenAt) : Prop :=
  u.kind.isSpace = false ∧ ∃ mid, u.before = t.before ++ ⟨t.text, .token t.kind⟩ :: mid ∧
    t.after = mid ++ ⟨u.text, .token u.kind⟩ :: u.after

theorem tokensFrom_pairwise (p : PathId) (before ls : List Lexeme) :
    (tokensFrom p before ls).Pairwise TokenAt.Precedes := by
  induction ls generalizing before with
  | nil => exact .nil
  | cons l ls ih =>
    rcases l.space_or_token with hl | ⟨kind, ha, hk⟩
    · exact tokensFrom_space hl ▸ ih _
    · rw [tokensFrom_token ha hk]
      refine .cons (fun u hu => ?_) (ih _)
      obtain ⟨-, hkind, mid, hbefore, hls⟩ := mem_tokensFrom hu
      refine ⟨hkind, mid, ?_, hls⟩
      rw [hbefore, List.append_assoc, ← ha]
      rfl

theorem placed_space (h : ∀ kind, l.action = .token kind → kind.isSpace = true) :
    (placed p off (l :: ls)).filter (!·.kind.isSpace) =
      (placed p (off + l.text.length) ls).filter (!·.kind.isSpace) := by
  obtain ⟨text, action⟩ := l
  cases action with
  | token kind => rw [placed, List.filter_cons_of_neg (by simp [h kind rfl])]
  | comment => simp only [placed]
  | echo => simp only [placed]

theorem placed_token {l : Lexeme} (ha : l.action = .token kind) : placed p off (l :: ls) =
    ⟨strdup l.text, kind, p, -1, l.text.length, off⟩ :: placed p (off + l.text.length) ls := by
  obtain ⟨text, action⟩ := l
  obtain rfl : action = .token kind := ha
  rw [placed]

theorem length_textOf_concat (ls : List Lexeme) (l : Lexeme) :
    (textOf (ls ++ [l])).length = (textOf ls).length + l.text.length := by
  rw [textOf_append, List.length_append, textOf_singleton]

theorem filter_placed (p : PathId) (before ls : List Lexeme) :
    (placed p (textOf before).length ls).filter (!·.kind.isSpace) =
      (tokensFrom p before ls).map TokenAt.tok := by
  induction ls generalizing before with
  | nil => rfl
  | cons l ls ih =>
    have hrest := ih (before ++ [l])
    rw [length_textOf_concat] at hrest
    rcases l.space_or_token with hl | ⟨kind, ha, hk⟩
    · rw [placed_space hl, tokensFrom_space hl, hrest]
    · rw [placed_token ha, tokensFrom_token ha hk, List.map_cons,
        List.filter_cons_of_pos (by simp [hk]), hrest]
      rfl

theorem hintsToks_space (h : ∀ kind, l.action = .token kind → kind.isSpace = true) :
    hintsToks 0 (placed p off (l :: ls) ++ toks) =
      hintsToks 0 (placed p (off + l.text.length) ls ++ toks) := by
  obtain ⟨text, action⟩ := l
  cases action with
  | token kind => rw [placed, List.cons_append, hintsToks_cons, if_pos (h kind rfl)]
  | comment => simp only [placed]
  | echo => simp only [placed]

structure HintAt (t : TokenAt) (h : PrintedHint) : Prop where
  path : h.p = t.path.printed
  start : h.l = (textOf t.before).length
  eaten : ∃ gap rest, t.after = gap ++ rest ∧ (∀ g ∈ gap, g.isFiller = true) ∧
    h.r = h.l + t.text.length + (textOf gap).length ∧
    ∀ l ∈ t.after.getLast?, l.action = .comment ∨ l.action = .token .newline → rest ≠ []

theorem HintAt.hintFor (h : HintAt t hint) : HintFor t hint := by
  obtain ⟨gap, rest, hafter, hfiller, hr, -⟩ := h.eaten
  exact ⟨h.path, h.start, gap, rest, hafter, hfiller, hr⟩

/-- The hints of one file, whatever other files follow. -/
theorem hintsToks_placed {ls : List Lexeme} (before : List Lexeme) (hecho : ∀ l ∈ ls, l.action ≠ .echo)
    (hend : endsFile p toks = true) : ∃ hints,
      hintsToks 0 (placed p (textOf before).length ls ++ toks) = hints ++ hintsToks 0 toks ∧
        List.Forall₂ HintAt (tokensFrom p before ls) hints := by
  induction ls generalizing before with
  | nil => exact ⟨[], rfl, .nil⟩
  | cons l ls ih =>
    obtain ⟨-, hls⟩ := List.forall_mem_cons.1 hecho
    obtain ⟨hints, hrun, hhints⟩ := ih (before ++ [l]) hls
    rw [length_textOf_concat] at hrun
    rcases l.space_or_token with hl | ⟨kind, ha, hk⟩
    · rw [hintsToks_space hl, tokensFrom_space hl]
      exact ⟨hints, hrun, hhints⟩
    · rw [placed_token ha, tokensFrom_token ha hk, List.cons_append, hintsToks_cons,
        if_neg (Bool.eq_false_iff.1 hk), hrun]
      obtain ⟨gap, rest, he, heaten⟩ := eatSpaces_placed
        (t := ⟨strdup l.text, kind, p, -1, l.text.length, (textOf before).length⟩)
        ((textOf before).length + l.text.length) hls hend
      refine ⟨_ :: hints, rfl, .cons ⟨?_, rfl, gap, rest, he, heaten.filler, ?_, ?_⟩ hhints⟩
      · exact congrArg PathId.printed heaten.path
      · obtain ⟨rfl, hlast⟩ | ⟨-, hstop⟩ := heaten.stop
        · rw [hlast]
          rfl
        · exact hstop
      · rw [he]
        exact heaten.final

theorem endsFile_of_forall (h : ∀ t ∈ toks, t.pathId ≠ p) : endsFile p toks = true := by
  cases toks with
  | nil => rfl
  | cons t toks => exact decide_eq_true (h t List.mem_cons_self)

theorem placed_path (h : t ∈ placed p off ls) : t.pathId = p := by
  induction ls generalizing off with
  | nil => cases h
  | cons l ls ih =>
    obtain ⟨text, action⟩ := l
    cases action with
    | token kind =>
      rw [placed] at h
      rcases List.mem_cons.1 h with rfl | h
      · rfl
      · exact ih h
    | comment =>
      simp only [placed] at h
      exact ih h
    | echo =>
      simp only [placed] at h
      exact ih h

theorem scanFile_ne_echo (data : Bytes) : ∀ l ∈ scanFile data, l.action ≠ .echo := by
  intro l hl
  obtain ⟨before, after, hscan⟩ := List.append_of_mem hl
  exact (scanFile_read hscan).ne_echo

theorem hintsToks_files {files : List (PathId × Bytes)}
    (hpaths : files.Pairwise fun f g => f.1.printed ≠ g.1.printed) : List.Forall₂ HintAt
      (files.flatMap fun f => tokensFrom f.1 [] (scanFile f.2))
      (hintsToks 0 (files.flatMap fun f => placed f.1 0 (scanFile f.2))) := by
  induction files with
  | nil => exact .nil
  | cons f files ih =>
    obtain ⟨hf, hfiles⟩ := List.pairwise_cons.1 hpaths
    have hend : endsFile f.1 (files.flatMap fun g => placed g.1 0 (scanFile g.2)) = true := by
      refine endsFile_of_forall fun t ht he => ?_
      obtain ⟨g, hg, ht⟩ := List.mem_flatMap.1 ht
      exact hf g hg (by rw [← he, placed_path ht])
    obtain ⟨hints, hrun, hhints⟩ :=
      hintsToks_placed [] (scanFile_ne_echo f.2) hend
    rw [List.flatMap_cons, List.flatMap_cons]
    exact hrun ▸ List.rel_append hhints (ih hfiles)

theorem files_pairwise (arg : Argument) :
    arg.files.Pairwise fun f g => f.1.printed ≠ g.1.printed := by
  cases arg with
  | file data => exact List.pairwise_singleton _ _
  | list files =>
    have hnodup := List.nodup_zipIdx_map_snd files
    rw [Argument.files, List.pairwise_map]
    exact (List.pairwise_map.1 hnodup).imp fun hne he => hne (Option.some.inj he)

theorem file_unique {arg : Argument} (hf : f ∈ arg.files) (hg : g ∈ arg.files)
    (h : f.1.printed = g.1.printed) : f = g := by
  have hnodup : (arg.files.map fun f => f.1.printed).Nodup :=
    List.pairwise_map.2 (files_pairwise arg)
  exact List.inj_on_of_nodup_map hnodup hf hg h

theorem tokens_pairwise (arg : Argument) :
    arg.tokens.Pairwise fun t u => t.path.printed = u.path.printed → t.Precedes u := by
  rw [Argument.tokens, List.pairwise_flatMap]
  constructor
  · intro f _
    refine (tokensFrom_pairwise f.1 [] (scanFile f.2)).imp ?_
    intro t u h _
    exact h
  · refine (files_pairwise arg).imp fun hne t ht u hu he => ?_
    rw [(mem_tokensFrom ht).1, (mem_tokensFrom hu).1] at he
    exact absurd he hne

/-- The file of a token, and where in it the token is. -/
theorem token_scanned {arg : Argument} (ht : t ∈ arg.tokens) : ∃ f ∈ arg.files, t.path = f.1 ∧
    t.kind.isSpace = false ∧ scanFile f.2 = t.before ++ ⟨t.text, .token t.kind⟩ :: t.after := by
  obtain ⟨f, hf, ht⟩ := List.mem_flatMap.1 ht
  obtain ⟨hp, hspace, mid, hbefore, hscan⟩ := mem_tokensFrom ht
  rw [List.nil_append] at hbefore
  exact ⟨f, hf, hp, hspace, hbefore ▸ hscan⟩

theorem exists_left (hR : List.Forall₂ R l₁ l₂) (hb : b ∈ l₂) : ∃ a ∈ l₁, R a b := by
  induction hR with
  | nil => cases hb
  | cons hab _ ih =>
    rcases List.mem_cons.1 hb with rfl | hb
    · exact ⟨_, List.mem_cons_self, hab⟩
    · obtain ⟨a, ha, hab⟩ := ih hb
      exact ⟨a, List.mem_cons_of_mem _ ha, hab⟩

theorem pairwise_right (hR : List.Forall₂ R l₁ l₂) (hS : l₁.Pairwise S)
    (h : ∀ a b c d, R a c → R b d → S a b → T c d) : l₂.Pairwise T := by
  induction hR with
  | nil => exact .nil
  | cons hac hR ih =>
    obtain ⟨ha, hS⟩ := List.pairwise_cons.1 hS
    refine .cons (fun d hd => ?_) (ih hS)
    obtain ⟨b, hb, hbd⟩ := exists_left hR hd
    exact h _ b _ d hac hbd (ha b hb)

/-- A hint ends before the next token, since it takes in no token but its own. -/
theorem HintFor.le_next (ht : HintFor t g) (hu : HintFor u h) (hprecedes : t.Precedes u) :
    g.r ≤ h.l := by
  obtain ⟨hkind, mid, hbefore, hafter⟩ := hprecedes
  obtain ⟨gap, rest, hgap, hfiller, hr⟩ := ht.covers
  have hprefix : ∃ left, mid = gap ++ left := by
    have he := hgap.symm.trans hafter
    rcases List.append_eq_append_iff.1 he with ⟨left, hmid, -⟩ | ⟨left, hl, hr'⟩
    · exact ⟨left, hmid⟩
    · cases left with
      | nil => exact ⟨[], by rw [hl, List.append_nil, List.append_nil]⟩
      | cons l left =>
        obtain ⟨rfl, -⟩ := List.cons.inj hr'
        have hspace : u.kind.isSpace = true :=
          hfiller ⟨u.text, .token u.kind⟩ (by rw [hl]; simp)
        cases hkind.symm.trans hspace
  obtain ⟨left, rfl⟩ := hprefix
  rw [hr, hu.start, hbefore, ht.start, textOf_append, textOf_cons, textOf_append]
  simp only [List.length_append]
  omega

theorem HintFor.bounds (h : HintFor t g)
    (hscan : scanFile data = t.before ++ ⟨t.text, .token t.kind⟩ :: t.after) :
    g.l < g.r ∧ g.r ≤ data.length := by
  obtain ⟨gap, rest, hafter, -, hr⟩ := h.covers
  have hpos : 0 < t.text.length := List.length_pos_iff.2 (scanFile_read hscan).ne_nil
  have hlen := congrArg List.length (textOf_scanFile data)
  rw [hscan, hafter, textOf_append, textOf_cons, textOf_append] at hlen
  simp only [List.length_append] at hlen
  rw [hr, h.start]
  constructor <;> omega

/-- The newline at the end of a file is left, unless it belongs to a splice. -/
theorem HintAt.le_newline (h : HintAt t g)
    (hscan : scanFile (text ++ [10]) = t.before ++ ⟨t.text, .token t.kind⟩ :: t.after)
    (hspace : t.kind.isSpace = false)
    (hcond : EndsInSplice (text ++ [10]) → EndsInComment (text ++ [10])) :
    g.r ≤ text.length := by
  obtain ⟨gap, rest, hafter, -, hr, hfinal⟩ := h.eaten
  have hrest : rest ≠ [] := by
    rcases List.eq_nil_or_concat' t.after with hnil | ⟨ls, l, hlast⟩
    · rw [hnil] at hscan
      rcases last_of_newline hscan hcond with ha | ha
      · cases ha
      · rw [Action.token.inj ha] at hspace
        cases hspace
    · have hscan' : scanFile (text ++ [10]) = t.before ++ ⟨t.text, .token t.kind⟩ :: ls ++ [l] := by
        rw [hscan, hlast, List.append_assoc, List.cons_append]
      exact hfinal l (by rw [hlast, List.getLast?_concat]; rfl) (last_of_newline hscan' hcond)
  have hscan' : scanFile (text ++ [10]) = (t.before ++ ⟨t.text, .token t.kind⟩ :: gap) ++ rest := by
    rw [hscan, hafter, List.append_assoc, List.cons_append]
  have hpos := List.length_pos_iff.2 (textOf_ne_nil hscan' hrest)
  have hlen := congrArg List.length (textOf_scanFile (text ++ [10]))
  rw [hscan', textOf_append, textOf_append, textOf_cons] at hlen
  simp only [List.length_append, List.length_cons, List.length_nil] at hlen
  rw [hr, h.start]
  omega

theorem hintsToks_tokens (arg : Argument) : List.Forall₂ HintAt arg.tokens
    (hintsToks 0 (arg.files.flatMap fun f => placed f.1 0 (scanFile f.2))) :=
  hintsToks_files (files_pairwise arg)

theorem clexHintsToks_eq (arg : Argument) : ∃ code, clexHintsToks arg =
    some ⟨code, hintsToks 0 (arg.files.flatMap fun f => placed f.1 0 (scanFile f.2))⟩ := by
  have htoks := clexTokens_eq arg
  rw [clexTokens] at htoks
  rw [clexHintsToks]
  split at htoks
  · rw [← Option.some.inj htoks]
    exact ⟨71, rfl⟩
  · rename_i s _
    obtain ⟨s₁, hlex, htoks⟩ := Option.map_eq_some_iff.1 htoks
    rw [hlex, ← htoks]
    exact ⟨51, rfl⟩

/-- A splice at the end of a file, read as a token, has a hint up to the end of the file. -/
theorem TokenHints.endsInComment (h : TokenHints arg hints) (hf : f ∈ arg.files)
    (hsplice : EndsInSplice f.2) : EndsInComment f.2 := by
  obtain ⟨before, l, hscan, ha⟩ := hsplice.last
  rcases ha with ha | ha
  · exact ⟨l, by rw [hscan, List.getLast?_concat]; rfl, ha⟩
  have hl : l = ⟨l.text, .token .other⟩ := by rw [← ha]
  have htoken : ⟨f.1, .other, before, l.text, []⟩ ∈ arg.tokens :=
    List.mem_flatMap.2 ⟨f, hf, tokensFrom_mem [] rfl (hl ▸ hscan)⟩
  obtain ⟨g, hg, hfor⟩ := exists_left h.oneToOne.flip htoken
  obtain ⟨gap, rest, hnil, -, hr⟩ := HintFor.covers hfor
  obtain rfl := (List.append_eq_nil_iff.1 hnil.symm).1
  have hstart : g.l = (textOf before).length := HintFor.start hfor
  have hpos := List.length_pos_iff.2 (scanFile_read hscan).ne_nil
  obtain ⟨text, blanks, hdata, -⟩ := hsplice
  rw [← List.cons_append, ← List.append_assoc] at hdata
  have hlen := congrArg List.length ((textOf_scanFile f.2).trans hdata)
  rw [hscan, length_textOf_concat, List.length_append, List.length_singleton] at hlen
  have hend : g.r = g.l + l.text.length := hr
  refine absurd ⟨?_, ?_⟩ (h.newline f hf g hg (HintFor.path hfor) _ hdata)
  · omega
  · omega

theorem tokenHints_of_splice (arg : Argument)
    (hcond : ∀ f ∈ arg.files, EndsInSplice f.2 → EndsInComment f.2) : TokenHints arg
      (hintsToks 0 (arg.files.flatMap fun f => placed f.1 0 (scanFile f.2))) := by
  have hhints := hintsToks_tokens arg
  refine ⟨?_, hhints.imp fun _ _ => HintAt.hintFor, ?_, ?_, ?_⟩
  · intro t ht
    obtain ⟨f, hf, hp, -, hscan⟩ := token_scanned ht
    have htext := textOf_scanFile f.2
    rw [hscan, textOf_append, textOf_cons, ← List.append_assoc] at htext
    exact ⟨f, hf, hp, htext.symm⟩
  · intro h hh
    obtain ⟨t, ht, hat⟩ := exists_left hhints hh
    obtain ⟨f, hf, hp, -, hscan⟩ := token_scanned ht
    exact ⟨f, hf, hp ▸ hat.path, hat.hintFor.bounds hscan⟩
  · refine pairwise_right hhints (tokens_pairwise arg) fun t u g h hg hh hprecedes he => ?_
    rw [hg.path, hh.path] at he
    exact hg.hintFor.le_next hh.hintFor (hprecedes he)
  · intro f hf h hh hpath text htext
    obtain ⟨t, ht, hat⟩ := exists_left hhints hh
    obtain ⟨f', hf', hp, hspace, hscan⟩ := token_scanned ht
    obtain rfl := file_unique hf' hf (by rw [← hpath, hat.path, hp])
    rw [htext] at hscan
    have hle := hat.le_newline hscan hspace (htext ▸ hcond _ hf)
    omega

/-- Every clause of the hints holds but the one about the newline, which holds exactly if the
scanner reads no splice at the end of a file. -/
theorem hintsToks_iff (arg : Argument) : ∃ toks code hints, clexTokens arg = some toks ∧
    toks.filter (!·.kind.isSpace) = arg.tokens.map TokenAt.tok ∧
    clexHintsToks arg = some ⟨code, hints⟩ ∧
    (TokenHints arg hints ↔ ∀ f ∈ arg.files, EndsInSplice f.2 → EndsInComment f.2) := by
  obtain ⟨code, hexit⟩ := clexHintsToks_eq arg
  refine ⟨_, code, _, clexTokens_eq arg, ?_, hexit, ?_, tokenHints_of_splice arg⟩
  · rw [Argument.tokens, List.filter_flatMap, List.map_flatMap]
    exact List.flatMap_congr fun f _ => filter_placed f.1 [] (scanFile f.2)
  · intro h f hf hsplice
    exact h.endsInComment hf hsplice

/-- The backslash and the newline that follows it make one token. -/
theorem final_newline_covered : ¬ ∀ (arg : Argument) (exit : ClexExit),
    clexHintsToks arg = some exit → TokenHints arg exit.hints := by
  intro hclaim
  have hrun : clexHintsToks (.list [[120, 92, 10]]) =
      some ⟨51, [⟨0, 1, some 0⟩, ⟨1, 3, some 0⟩]⟩ := by decide +kernel
  have h := (hclaim _ _ hrun).newline (.listed 0, [120, 92, 10]) List.mem_cons_self ⟨1, 3, some 0⟩
    (List.mem_cons_of_mem _ List.mem_cons_self) rfl [120, 92] rfl
  exact h ⟨by decide, by decide⟩

end Cvise
