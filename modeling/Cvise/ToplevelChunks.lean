import Cvise.TopformflatTokens

namespace Cvise
set_option autoImplicit true

namespace Topformflat

/-- By how much the counted braces that open outnumber those that close, before a position. -/
def level (data : Bytes) (i : Nat) : Int :=
  Brackets.height 123 125 (countedBraces .initial true data) i

/-- The counted braces of a range are balanced, and none of its prefixes closes more than it opens. -/
def Balanced (data : Bytes) (l r : Nat) : Prop :=
  level data r = level data l ∧ ∀ q, l ≤ q → q ≤ r → level data l ≤ level data q

/-- A range holds more than blanks and newlines. -/
def Nonblank (data : Bytes) (l r : Nat) : Prop :=
  ∃ i b, l ≤ i ∧ i < r ∧ data[i]? = some b ∧ isBlankByte b = false

theorem Nonblank.mono (h : Nonblank data l r) (hr : r ≤ r') : Nonblank data l r' := by
  obtain ⟨i, b, hl, hlt, hb⟩ := h
  exact ⟨i, b, hl, hlt.trans_le hr, hb⟩

/-- Where the scanner is in its file. -/
structure Reads (data : Bytes) (s : Flat) : Prop where
  rest : s.rest = data.drop s.tokenEndPos
  le : s.tokenEndPos ≤ data.length
  counted : (countedBraces .initial true data).drop s.tokenEndPos =
    countedBraces s.condition s.atBol s.rest
  line : s.atBol = true → 0 < s.tokenEndPos → data[s.tokenEndPos - 1]? = some 10

theorem countedBraces_rule (hne : text ≠ []) (hm : matchRule c atBol text = (n, action)) :
    countedBraces c atBol text = countedToken action n ++
      countedBraces (Flat.nextCondition c action) ((text.take n).getLast? = some 10)
        (text.drop n) := by
  rw [countedBraces, if_neg hne, hm]

/-- A token, and the nesting behind each of its bytes. -/
structure TokenOf (data : Bytes) (s : Flat) (n : Nat) (action : RuleAction) : Prop where
  pos : 0 < n
  le : s.tokenEndPos + n ≤ data.length
  depth : ∀ k, 0 < k → k ≤ n →
    level data (s.tokenEndPos + k) = level data s.tokenEndPos + action.delta

theorem Reads.token {s : Flat} (h : Reads data s) (hne : s.rest ≠ [])
    (hm : matchRule s.condition s.atBol s.rest = (n, action)) : TokenOf data s n action := by
  have hpos := matchRule_pos s.condition s.atBol s.rest
  have hle := matchRule_le s.condition s.atBol hne
  rw [hm] at hpos hle
  have hlen := congrArg List.length h.rest
  rw [List.length_drop] at hlen
  refine ⟨hpos, by have := h.le; omega, fun k hk hkn => ?_⟩
  rw [level, Brackets.height_add, h.counted, countedBraces_rule hne hm,
    Brackets.height_append ((countedToken_length action hpos).symm ▸ hkn),
    height_countedToken action hk hkn]
  rfl

theorem Reads.byte {s : Flat} (h : Reads data s) (i : Nat) :
    s.rest[i]? = data[s.tokenEndPos + i]? := by
  rw [h.rest, List.getElem?_drop]

theorem Reads.advance {s : Flat} (h : Reads data s) (hne : s.rest ≠ [])
    (hm : matchRule s.condition s.atBol s.rest = (n, action))
    (ha : (s.advance n).act n action = some s₁) : Reads data s₁ := by
  obtain ⟨-, hyyin, -, -, hcondition, hbol, hend⟩ := Flat.act_kept ha
  obtain ⟨hpos, hle, -⟩ := h.token hne hm
  have hrest : s₁.rest = s.rest.drop n := by
    rw [Flat.rest, hyyin]
    rfl
  have hendPos : s₁.tokenEndPos = s.tokenEndPos + n := hend
  constructor
  · rw [hrest, hendPos, h.rest, List.drop_drop]
  · exact hendPos ▸ hle
  · rw [hendPos, ← List.drop_drop, h.counted, countedBraces_rule hne hm,
      List.drop_append_of_le_length (countedToken_length action hpos).ge,
      List.drop_eq_nil_of_le (countedToken_length action hpos).le, List.nil_append, hcondition,
      hbol, hrest]
    rfl
  · intro hline _
    have hlast : (s.rest.take n).getLast? = some 10 := of_decide_eq_true (hbol.symm.trans hline)
    have hlen := congrArg List.length h.rest
    rw [List.length_drop] at hlen
    rw [List.getLast?_eq_getElem?, List.length_take_of_le (by omega),
      List.getElem?_take_of_lt (by omega), h.byte] at hlast
    rw [hendPos, ← hlast]
    congr 1
    omega

/-- A chunk that may be printed for a file. -/
structure ChunkOf (data : Bytes) (c : Chunk) : Prop where
  nonempty : c.l < c.r
  within : c.r ≤ data.length
  text : Nonblank data c.l c.r

/-- A chunk that a rule may print. It is balanced, but with a negative threshold the one that begins
the file is not. -/
structure RuleChunk (data : Bytes) (threshold : Int) (c : Chunk) : Prop extends ChunkOf data c where
  depth : level data c.r = threshold
  balanced : 0 ≤ threshold ∨ c.l ≠ 0 → Balanced data c.l c.r

structure PrintedBefore (data : Bytes) (threshold : Int) (cs : List Chunk) (pos : Nat) : Prop where
  chunks : ∀ c ∈ cs, RuleChunk data threshold c
  before : ∀ c ∈ cs, c.r ≤ pos
  ascending : cs.Pairwise fun c d => c.r ≤ d.l

theorem PrintedBefore.mono (h : PrintedBefore data threshold cs pos) (hle : pos ≤ pos') :
    PrintedBefore data threshold cs pos' :=
  ⟨h.chunks, fun c hc => (h.before c hc).trans hle, h.ascending⟩

theorem ascending_snoc {cs : List Chunk} {d : Chunk} (h : cs.Pairwise fun c d => c.r ≤ d.l)
    (hbefore : ∀ c ∈ cs, c.r ≤ d.l) : (cs ++ [d]).Pairwise fun c d => c.r ≤ d.l :=
  List.pairwise_append.2 ⟨h, List.pairwise_singleton _ d,
    fun c hc _ hd' => List.mem_singleton.1 hd' ▸ hbefore c hc⟩

theorem PrintedBefore.snoc {c : Chunk} (h : PrintedBefore data threshold cs c.l)
    (hc : RuleChunk data threshold c) : PrintedBefore data threshold (cs ++ [c]) c.r := by
  refine ⟨fun d hd => ?_, fun d hd => ?_, ascending_snoc h.ascending h.before⟩
  · rcases List.mem_append.1 hd with hd | hd
    · exact h.chunks d hd
    · exact List.mem_singleton.1 hd ▸ hc
  · rcases List.mem_append.1 hd with hd | hd
    · exact (h.before d hd).trans hc.nonempty.le
    · exact (List.mem_singleton.1 hd ▸ Nat.le_refl _)

/-- The two ways in which the nesting has gone on from the begin of the current chunk to a position:
it is there again, or it went up through the threshold and has stayed above. Before anything was
deleted at a negative threshold, the chunk begins the file. -/
def Open (data : Bytes) (threshold : Int) (start pos : Nat) (nesting : Int) : Prop :=
  (level data start ≤ threshold ∧ (∀ q, start ≤ q → q ≤ pos → level data start ≤ level data q) ∧
    (nesting = level data start ∨ (level data start = threshold ∧ threshold < nesting))) ∨
  (threshold < 0 ∧ start = 0 ∧ threshold < nesting)

/-- The state before an end of a chunk: what is printed is before both its sides, and what may be
printed now is a chunk. -/
structure MayEnd (data : Bytes) (s : Flat) (pos : Nat) : Prop where
  before : PrintedBefore data s.threshold s.printed s.chunkStartPos
  beforePos : PrintedBefore data s.threshold s.printed pos
  chunk : s.nesting = s.threshold → s.chunkStartPos < pos →
    ¬(s.whitespaceStartPos ≤ s.chunkStartPos ∧ pos ≤ s.whitespaceEndPos) →
    RuleChunk data s.threshold ⟨s.chunkStartPos, pos, s.pathId⟩

theorem MayEnd.possibleChunkEnd {s : Flat} (h : MayEnd data s pos) (hp : s.pathId ≠ .ended) :
    ∃ cs, s.possibleChunkEnd pos = some { s with
        printed := cs
        chunkStartPos := if s.nesting ≤ s.threshold then pos else s.chunkStartPos } ∧
      PrintedBefore data s.threshold cs pos ∧
      PrintedBefore data s.threshold cs
        (if s.nesting ≤ s.threshold then pos else s.chunkStartPos) := by
  have hsame : ∃ cs, some (s.possibleChunkBegin pos) = some { s with
        printed := cs
        chunkStartPos := if s.nesting ≤ s.threshold then pos else s.chunkStartPos } ∧
      PrintedBefore data s.threshold cs pos ∧
      PrintedBefore data s.threshold cs
        (if s.nesting ≤ s.threshold then pos else s.chunkStartPos) := by
    refine ⟨s.printed, ?_, h.beforePos, ?_⟩
    · rw [Flat.possibleChunkBegin]
      split <;> rfl
    · split
      · exact h.beforePos
      · exact h.before
  rw [Flat.possibleChunkEnd, if_neg hp]
  by_cases hn : s.nesting = s.threshold
  · rw [if_pos hn, Flat.chunkEnd]
    split
    · exact hsame
    · rename_i hlt
      split
      · exact hsame
      · rename_i hspace
        have hsnoc := h.before.snoc (h.chunk hn (Nat.not_le.1 hlt) hspace)
        refine ⟨_, ?_, hsnoc, ?_⟩
        · rw [Flat.possibleChunkBegin, if_pos hn.le, if_pos hn.le]
        · rw [if_pos hn.le]
          exact hsnoc
  · rw [if_neg hn]
    exact hsame

/-- What holds between the rules. -/
structure Marks (data : Bytes) (s : Flat) : Prop where
  path : s.pathId ≠ .ended
  depth : level data s.tokenEndPos = s.nesting
  start : s.chunkStartPos ≤ s.tokenEndPos
  printed : PrintedBefore data s.threshold s.printed s.chunkStartPos
  line : s.atBol = true → 0 < s.tokenEndPos →
    level data (s.tokenEndPos - 1) = s.nesting ∧
      ∀ c ∈ s.printed, c.r < s.tokenEndPos
  opened : Open data s.threshold s.chunkStartPos s.tokenEndPos s.nesting
  blanks : s.chunkStartPos < s.tokenEndPos → ¬Nonblank data s.chunkStartPos s.tokenEndPos →
    s.whitespaceStartPos ≤ s.chunkStartPos ∧ s.whitespaceEndPos = s.tokenEndPos
  block : s.whitespaceStartPos ≤ s.whitespaceEndPos
  literal : s.condition ≠ .initial → Nonblank data s.chunkStartPos s.tokenEndPos

theorem level_zero (data : Bytes) : level data 0 = 0 := rfl

theorem marks_start (threshold : Int) (data : Bytes) : Marks data (openFile threshold data) where
  path := PathId.noConfusion
  depth := level_zero data
  start := Nat.le_refl 0
  printed := ⟨fun c hc => absurd hc List.not_mem_nil, fun c hc => absurd hc List.not_mem_nil,
    .nil⟩
  line _ h := absurd h (Nat.lt_irrefl 0)
  opened := by
    rcases Int.lt_or_le threshold 0 with h | h
    · exact .inr ⟨h, rfl, h⟩
    · refine .inl ⟨h, fun q _ hq => ?_, .inl rfl⟩
      rw [Nat.le_zero.1 hq]
      exact Int.le_refl _
  blanks h := absurd h (Nat.lt_irrefl 0)
  block := Int.le_refl _
  literal h := absurd rfl h

theorem Open.extend (h : Open data threshold start pos nesting)
    (hrest : ∀ q, pos < q → q ≤ pos' → level data q = nesting) :
    Open data threshold start pos' nesting := by
  rcases h with ⟨hle, hall, hnesting⟩ | hfirst
  · refine .inl ⟨hle, fun q hq hq' => ?_, hnesting⟩
    by_cases hpos : q ≤ pos
    · exact hall q hq hpos
    · rw [hrest q (Nat.not_le.1 hpos) hq']
      rcases hnesting with he | ⟨he, hlt⟩
      · exact he.ge
      · exact he.trans_le hlt.le
  · exact .inr hfirst

theorem Open.balanced (h : Open data threshold start pos nesting) (hlevel : level data pos = nesting)
    (ht : nesting = threshold) : Balanced data start pos := by
  rcases h with ⟨-, hall, he | ⟨-, hlt⟩⟩ | ⟨-, -, hlt⟩
  · exact ⟨hlevel.trans he, hall⟩
  · exact absurd ht hlt.ne'
  · exact absurd ht hlt.ne'

theorem Marks.begins {t : Flat} (hpath : t.pathId ≠ .ended)
    (hlevel : level data t.tokenEndPos = t.nesting) (hstart : t.chunkStartPos ≤ t.tokenEndPos)
    (hprinted : PrintedBefore data t.threshold cs
      (if t.nesting ≤ t.threshold then t.tokenEndPos else t.chunkStartPos))
    (hline : t.atBol = true → 0 < t.tokenEndPos →
      level data (t.tokenEndPos - 1) = t.nesting ∧ ∀ c ∈ cs, c.r < t.tokenEndPos)
    (hopen : t.threshold < t.nesting →
      Open data t.threshold t.chunkStartPos t.tokenEndPos t.nesting)
    (htext : Nonblank data t.chunkStartPos t.tokenEndPos)
    (hblock : t.whitespaceStartPos ≤ t.whitespaceEndPos) (hcondition : t.condition = .initial) :
    Marks data { t with
      printed := cs
      chunkStartPos := if t.nesting ≤ t.threshold then t.tokenEndPos else t.chunkStartPos } := by
  refine ⟨hpath, hlevel, ?_, hprinted, hline, ?_, fun hlt hblank => ?_, hblock,
    fun hne => absurd hcondition hne⟩
  · show (if t.nesting ≤ t.threshold then _ else _) ≤ t.tokenEndPos
    split
    · exact Nat.le_refl _
    · exact hstart
  · show Open data t.threshold (if t.nesting ≤ t.threshold then _ else _) t.tokenEndPos t.nesting
    split
    · rename_i hle
      refine .inl ⟨hlevel.trans_le hle, fun q hq hq' => ?_, .inl hlevel.symm⟩
      rw [Nat.le_antisymm hq' hq]
    · rename_i hlt
      exact hopen (Int.not_le.1 hlt)
  · change (if t.nesting ≤ t.threshold then _ else _) < t.tokenEndPos at hlt
    change ¬Nonblank data (if t.nesting ≤ t.threshold then _ else _) t.tokenEndPos at hblank
    split at hlt
    · exact absurd hlt (Nat.lt_irrefl _)
    · rename_i hn
      rw [if_neg hn] at hblank
      exact absurd htext hblank

theorem Marks.behind {s : Flat} (h : Marks data s) (htok : TokenOf data s n action)
    (hq : s.tokenEndPos < q) (hqn : q ≤ s.tokenEndPos + n) :
    level data q = s.nesting + action.delta := by
  obtain ⟨k, rfl⟩ := Nat.exists_eq_add_of_lt hq
  rw [← h.depth]
  exact htok.depth (k + 1) (Nat.succ_pos k) (by omega)

theorem Marks.goesOn {s s₁ : Flat} (h : Marks data s) (htok : TokenOf data s n action)
    (hdelta : action.delta = 0) (hkept : (s.advance n).Kept { s₁ with condition := s.condition })
    (hprinted : s₁.printed = s.printed) (hstart : s₁.chunkStartPos = s.chunkStartPos)
    (hnesting : s₁.nesting = s.nesting) (hblock : s₁.whitespaceStartPos ≤ s₁.whitespaceEndPos)
    (hblanks : Nonblank data s.chunkStartPos (s.tokenEndPos + n) ∨ (s₁.condition = .initial ∧
      (¬Nonblank data s.chunkStartPos (s.tokenEndPos + n) →
        s₁.whitespaceStartPos ≤ s.chunkStartPos ∧ s₁.whitespaceEndPos = s.tokenEndPos + n))) :
    Marks data s₁ := by
  obtain ⟨hthreshold, -, hpath, -, -, hbol, hend⟩ := hkept
  have hendPos : s₁.tokenEndPos = s.tokenEndPos + n := hend
  have hlevel (q : Nat) (hq : s.tokenEndPos < q) (hqn : q ≤ s.tokenEndPos + n) :
      level data q = s.nesting := by
    rw [h.behind htok hq hqn, hdelta, Int.add_zero]
  have hpos := htok.pos
  constructor
  · exact fun he => h.path (hpath.symm.trans he)
  · rw [hendPos, hnesting]
    exact hlevel _ (by omega) (Nat.le_refl _)
  · rw [hendPos, hstart]
    exact h.start.trans (Nat.le_add_right _ _)
  · rw [hprinted, hstart, show s₁.threshold = s.threshold from hthreshold]
    exact h.printed
  · intro _ _
    rw [hendPos, hnesting, hprinted]
    refine ⟨?_, fun c hc => ?_⟩
    · by_cases hone : n = 1
      · rw [hone, Nat.add_sub_cancel, h.depth]
      · exact hlevel _ (by omega) (by omega)
    · have hbefore := h.printed.before c hc
      have := h.start
      omega
  · rw [hendPos, hnesting, hstart, show s₁.threshold = s.threshold from hthreshold]
    exact h.opened.extend hlevel
  · intro _ hblank
    rw [hstart, hendPos] at hblank
    rw [hendPos, hstart]
    rcases hblanks with htext | ⟨-, hspace⟩
    · exact absurd htext hblank
    · exact hspace hblank
  · exact hblock
  · intro hne
    rw [hstart, hendPos]
    rcases hblanks with htext | ⟨he, -⟩
    · exact htext
    · exact absurd he hne

/-- Outside of literals, a token that is not blank makes the chunk one that is not. -/
theorem Reads.text {s : Flat} (h : Reads data s) (hne : s.rest ≠ [])
    (hc : s.condition = .initial) (hm : matchRule s.condition s.atBol s.rest = (n, action))
    (hspace : action ≠ .whitespace) (hdir : action ≠ .directive) (hstart : start ≤ s.tokenEndPos) :
    Nonblank data start (s.tokenEndPos + n) := by
  have hpos := (h.token hne hm).pos
  obtain ⟨b, bs, hrest⟩ := List.exists_cons_of_ne_nil hne
  have hbyte := h.byte 0
  rw [hrest, hc] at hm
  rw [hrest, List.getElem?_cons_zero, Nat.add_zero] at hbyte
  exact ⟨s.tokenEndPos, b, hstart, by omega, hbyte.symm, first_not_blank hm hspace hdir⟩

theorem Marks.nothing {s : Flat} (h : Marks data s) (hr : Reads data s) (hne : s.rest ≠ [])
    (hm : matchRule s.condition s.atBol s.rest = (n, .nothing)) : Marks data (s.advance n) := by
  refine h.goesOn (hr.token hne hm) rfl (.refl _) rfl rfl rfl h.block (.inl ?_)
  by_cases hc : s.condition = .initial
  · exact hr.text hne hc hm RuleAction.noConfusion RuleAction.noConfusion h.start
  · exact (h.literal hc).mono (Nat.le_add_right _ _)

theorem Marks.switchTo {s : Flat} (h : Marks data s) (hr : Reads data s) (hne : s.rest ≠ [])
    (hm : matchRule s.condition s.atBol s.rest = (n, .switchTo c)) :
    Marks data { s.advance n with condition := c } := by
  refine h.goesOn (hr.token hne hm) rfl (.refl _) rfl rfl rfl h.block (.inl ?_)
  by_cases hc : s.condition = .initial
  · exact hr.text hne hc hm RuleAction.noConfusion RuleAction.noConfusion h.start
  · exact (h.literal hc).mono (Nat.le_add_right _ _)

theorem Marks.whitespace {s : Flat} (h : Marks data s) (hr : Reads data s) (hne : s.rest ≠ [])
    (hc : s.condition = .initial)
    (hm : matchRule s.condition s.atBol s.rest = (n, .whitespace))
    (ha : (s.advance n).act n .whitespace = some s₁) : Marks data s₁ := by
  obtain rfl := Option.some.inj ha
  have hstart := h.start
  have hblock := h.block
  have hback : s.tokenEndPos + n - n = s.tokenEndPos := Nat.add_sub_cancel _ _
  have hend : (s.advance n).tokenEndPos = s.tokenEndPos + n := rfl
  refine h.goesOn (hr.token hne hm) rfl ⟨rfl, rfl, rfl, rfl, rfl, rfl, rfl⟩ rfl rfl rfl ?_
    (.inr ⟨hc, fun hblank => ⟨?_, rfl⟩⟩)
  · show (if ((s.tokenEndPos + n - n : Nat) : Int) ≠ s.whitespaceEndPos then _ else _) ≤
      ((s.tokenEndPos + n : Nat) : Int)
    rw [hback]
    split
    · omega
    · rename_i he
      have he : (s.tokenEndPos : Int) = s.whitespaceEndPos := not_not.1 he
      show s.whitespaceStartPos ≤ _
      omega
  · show (if ((s.tokenEndPos + n - n : Nat) : Int) ≠ s.whitespaceEndPos then _ else _) ≤ _
    rw [hback]
    by_cases hlt : s.chunkStartPos < s.tokenEndPos
    · obtain ⟨hle, hend⟩ := h.blanks hlt fun htext => hblank (htext.mono (Nat.le_add_right _ _))
      rw [if_neg (not_not.2 hend.symm)]
      exact hle
    · split
      · omega
      · rename_i he
        have he : (s.tokenEndPos : Int) = s.whitespaceEndPos := not_not.1 he
        show s.whitespaceStartPos ≤ _
        omega

theorem Marks.openBrace {s : Flat} (h : Marks data s) (hr : Reads data s) (hne : s.rest ≠ [])
    (hc : s.condition = .initial) (hm : matchRule s.condition s.atBol s.rest = (n, .openBrace))
    (ha : (s.advance n).act n .openBrace = some s₁) : Marks data s₁ := by
  have htok := hr.token hne hm
  have hlevel (q : Nat) (hq : s.tokenEndPos < q) (hqn : q ≤ s.tokenEndPos + n) :
      level data q = s.nesting + 1 := h.behind htok hq hqn
  have hstart := h.start
  have htext := hr.text hne hc hm RuleAction.noConfusion RuleAction.noConfusion hstart
  have hline : (s.advance n).atBol ≠ true := fun he =>
    last_not_newline hm (.inr (.inl rfl)) (of_decide_eq_true he)
  have hbegin : s₁ = { s.advance n with
      nesting := s.nesting + 1
      printed := s.printed
      chunkStartPos := if s.nesting + 1 ≤ s.threshold then s.tokenEndPos + n
        else s.chunkStartPos } := by
    obtain rfl := Option.some.inj ha
    rw [Flat.possibleChunkBegin]
    show (if s.nesting + 1 ≤ s.threshold then _ else _) = _
    split <;> rfl
  rw [hbegin]
  refine Marks.begins (t := { s.advance n with nesting := s.nesting + 1 }) h.path
    (hlevel _ (Nat.lt_add_of_pos_right htok.pos) (Nat.le_refl _)) (hstart.trans (Nat.le_add_right _ _)) ?_
    (fun he => absurd he hline) (fun hlt => ?_) htext h.block hc
  · show PrintedBefore data s.threshold s.printed (if s.nesting + 1 ≤ s.threshold then
      s.tokenEndPos + n else s.chunkStartPos)
    split
    · exact h.printed.mono (hstart.trans (Nat.le_add_right _ _))
    · exact h.printed
  · change s.threshold < s.nesting + 1 at hlt
    rcases h.opened with ⟨hle', hall, he⟩ | ⟨hneg, hzero, habove⟩
    · refine .inl ⟨hle', fun q hq hq' => ?_, .inr ⟨?_, hlt⟩⟩
      · by_cases hold : q ≤ s.tokenEndPos
        · exact hall q hq hold
        · show level data s.chunkStartPos ≤ level data q
          rw [hlevel q (Nat.not_le.1 hold) hq']
          omega
      · show level data s.chunkStartPos = s.threshold
        omega
    · exact .inr ⟨hneg, hzero, hlt⟩

/-- A chunk may end behind a token that is not the end of a line. -/
theorem Marks.ends {t : Flat} (hpath : t.pathId ≠ .ended) (hle : t.tokenEndPos ≤ data.length)
    (hlevel : level data t.tokenEndPos = t.nesting) (hstart : t.chunkStartPos < t.tokenEndPos)
    (hprinted : PrintedBefore data t.threshold t.printed t.chunkStartPos)
    (hline : t.atBol ≠ true)
    (hbalanced : t.nesting = t.threshold → 0 ≤ t.threshold ∨ t.chunkStartPos ≠ 0 →
      Balanced data t.chunkStartPos t.tokenEndPos)
    (hopen : t.threshold < t.nesting →
      Open data t.threshold t.chunkStartPos t.tokenEndPos t.nesting)
    (htext : Nonblank data t.chunkStartPos t.tokenEndPos)
    (hblock : t.whitespaceStartPos ≤ t.whitespaceEndPos) (hcondition : t.condition = .initial) :
    ∃ s₁, t.possibleChunkEnd t.tokenEndPos = some s₁ ∧ Marks data s₁ := by
  have hmay : MayEnd data t t.tokenEndPos :=
    ⟨hprinted, hprinted.mono hstart.le, fun hn _ _ =>
      ⟨⟨hstart, hle, htext⟩, hlevel.trans hn, hbalanced hn⟩⟩
  obtain ⟨cs, hend, -, hcs⟩ := hmay.possibleChunkEnd hpath
  exact ⟨_, hend, Marks.begins hpath hlevel hstart.le hcs (fun he => absurd he hline) hopen htext
    hblock hcondition⟩

theorem Marks.semicolon {s : Flat} (h : Marks data s) (hr : Reads data s) (hne : s.rest ≠ [])
    (hc : s.condition = .initial) (hm : matchRule s.condition s.atBol s.rest = (n, .semicolon)) :
    ∃ s₁, (s.advance n).act n .semicolon = some s₁ ∧ Marks data s₁ := by
  have htok := hr.token hne hm
  have hlevel (q : Nat) (hq : s.tokenEndPos < q) (hqn : q ≤ s.tokenEndPos + n) :
      level data q = s.nesting := (h.behind htok hq hqn).trans (Int.add_zero _)
  have hlt := Nat.lt_add_of_pos_right (n := s.tokenEndPos) htok.pos
  have hopen := h.opened.extend hlevel
  have hlast := hlevel _ hlt (Nat.le_refl _)
  exact Marks.ends (t := s.advance n) h.path htok.le hlast (h.start.trans_lt hlt) h.printed
    (fun he => last_not_newline hm (.inl rfl) (of_decide_eq_true he))
    (fun hn _ => hopen.balanced hlast hn) (fun _ => hopen)
    (hr.text hne hc hm RuleAction.noConfusion RuleAction.noConfusion h.start) h.block hc

/-- A closing brace that comes down to the threshold ends what went up through it. -/
theorem Marks.closeBrace {s : Flat} (h : Marks data s) (hr : Reads data s) (hne : s.rest ≠ [])
    (hc : s.condition = .initial) (hm : matchRule s.condition s.atBol s.rest = (n, .closeBrace)) :
    ∃ s₁, (s.advance n).act n .closeBrace = some s₁ ∧ Marks data s₁ := by
  have htok := hr.token hne hm
  have hlevel (q : Nat) (hq : s.tokenEndPos < q) (hqn : q ≤ s.tokenEndPos + n) :
      level data q = s.nesting - 1 := h.behind htok hq hqn
  have hlt := Nat.lt_add_of_pos_right (n := s.tokenEndPos) htok.pos
  have hlast := hlevel _ hlt (Nat.le_refl _)
  have habove (hge : s.threshold ≤ s.nesting - 1) : (level data s.chunkStartPos = s.threshold ∧
      ∀ q, s.chunkStartPos ≤ q → q ≤ s.tokenEndPos + n → s.threshold ≤ level data q) ∨
      (s.threshold < 0 ∧ s.chunkStartPos = 0) := by
    rcases h.opened with ⟨hle', hall, he⟩ | ⟨hneg, hzero, -⟩
    · have hat : level data s.chunkStartPos = s.threshold := by omega
      refine .inl ⟨hat, fun q hq hq' => ?_⟩
      by_cases hold : q ≤ s.tokenEndPos
      · exact hat ▸ hall q hq hold
      · rw [hlevel q (Nat.not_le.1 hold) hq']
        exact hge
    · exact .inr ⟨hneg, hzero⟩
  refine Marks.ends (t := { s.advance n with nesting := s.nesting - 1 }) h.path htok.le hlast
    (h.start.trans_lt hlt) h.printed
    (fun he => last_not_newline hm (.inr (.inr rfl)) (of_decide_eq_true he))
    (fun hn hfirst => ?_) (fun hgt => ?_)
    (hr.text hne hc hm RuleAction.noConfusion RuleAction.noConfusion h.start) h.block hc
  · change s.nesting - 1 = s.threshold at hn
    rcases habove hn.ge with ⟨hat, hall⟩ | ⟨hneg, hzero⟩
    · exact ⟨hlast.trans (hn.trans hat.symm), fun q hq hq' => hat.trans_le (hall q hq hq')⟩
    · rcases hfirst with hfirst | hfirst
      · exact absurd hneg (Int.not_lt.2 hfirst)
      · exact absurd hzero hfirst
  · change s.threshold < s.nesting - 1 at hgt
    rcases habove hgt.le with ⟨hat, hall⟩ | ⟨hneg, hzero⟩
    · exact .inl ⟨hat.le, fun q hq hq' => hat.trans_le (hall q hq hq'), .inr ⟨hat, hgt⟩⟩
    · exact .inr ⟨hneg, hzero, hgt⟩

/-- What a directive's text is in the file: it has its sharp sign before its last byte. -/
theorem Reads.directive {s : Flat} (h : Reads data s) (hne : s.rest ≠ [])
    (hm : matchRule s.condition s.atBol s.rest = (n, .directive)) :
    2 ≤ n ∧ Nonblank data s.tokenEndPos (s.tokenEndPos + n - 1) := by
  obtain ⟨before, behind, he⟩ := directive_shape hm
  have hle := matchRule_le s.condition s.atBol hne
  rw [hm] at hle
  have hlen := congrArg List.length he
  rw [List.length_take_of_le hle, List.length_append, List.length_cons, List.length_append,
    List.length_singleton] at hlen
  have hbyte := congrArg (·[before.length]?) he
  rw [List.getElem?_append_right (Nat.le_refl _), Nat.sub_self, List.getElem?_cons_zero,
    List.getElem?_take_of_lt (by omega), h.byte] at hbyte
  exact ⟨by omega, s.tokenEndPos + before.length, 35, by omega, by omega, hbyte, rfl⟩

theorem initial_of_directive (hm : matchRule c atBol text = (n, .directive)) :
    c = .initial ∧ atBol = true := by
  rcases matchRule_mem hm with he | ⟨p, hp, -⟩
  · cases he
  · cases c with
    | initial =>
      cases atBol with
      | false => simp [rules] at hp
      | true => exact ⟨rfl, rfl⟩
    | string => simp [rules, literalRules] at hp
    | charlit => simp [rules, literalRules] at hp

/-- The first step of a directive's action, which may end a chunk before the newline of the previous
line. -/
theorem Marks.endBeforeLine {s : Flat} (h : Marks data s) (hr : Reads data s)
    (hbol : s.atBol = true) : ∃ cs start,
      (s.advance n).endBeforeLine s.tokenEndPos =
        some { s.advance n with printed := cs, chunkStartPos := start } ∧
      start ≤ s.tokenEndPos ∧ PrintedBefore data s.threshold cs start ∧
      PrintedBefore data s.threshold cs s.tokenEndPos ∧
      (s.nesting = s.threshold → ∀ q, start ≤ q → q ≤ s.tokenEndPos → level data q = s.nesting) ∧
      (s.threshold < s.nesting →
        Open data s.threshold start s.tokenEndPos s.nesting) := by
  have hstart := h.start
  rw [Flat.endBeforeLine]
  by_cases hzero : s.tokenEndPos = 0
  · refine ⟨s.printed, s.chunkStartPos, if_neg (by omega), h.start, h.printed,
      h.printed.mono h.start, fun _ q _ hq => ?_, fun _ => h.opened⟩
    rw [← h.depth, show q = s.tokenEndPos by omega]
  · have hpos : 0 < s.tokenEndPos := Nat.pos_of_ne_zero hzero
    obtain ⟨hlevel, hbefore⟩ := h.line hbol hpos
    have hnewline := hr.line hbol hpos
    have hle := hr.le
    have hmay : MayEnd data (s.advance n) (s.tokenEndPos - 1) := by
      refine ⟨h.printed, ⟨h.printed.chunks, fun c hc => Nat.le_sub_one_of_lt (hbefore c hc),
        h.printed.ascending⟩, fun hn hlt hspace => ?_⟩
      change s.chunkStartPos < s.tokenEndPos - 1 at hlt
      obtain ⟨hend, hall⟩ := h.opened.balanced h.depth hn
      refine ⟨⟨hlt, (Nat.sub_le _ 1).trans hle, ?_⟩, hlevel.trans hn, fun _ => ⟨hlevel.trans (h.depth.symm.trans hend), ?_⟩⟩
      · by_contra hblank
        -- The newline that is left out is blank as well, so all of it is one block.
        obtain ⟨hfrom, hto⟩ := h.blanks (by omega) (by
          rintro ⟨i, b, hi, hi', hb, hnb⟩
          by_cases hlast : i = s.tokenEndPos - 1
          · rw [hlast, hnewline] at hb
            obtain rfl := Option.some.inj hb
            cases hnb
          · exact hblank ⟨i, b, hi, show i < s.tokenEndPos - 1 by omega, hb, hnb⟩)
        refine hspace ⟨hfrom, ?_⟩
        show ((s.tokenEndPos - 1 : Nat) : Int) ≤ s.whitespaceEndPos
        omega
      · intro q hq hq'
        exact hall q hq (hq'.trans (Nat.sub_le _ _))
    obtain ⟨cs, hend, hcs, hcs'⟩ := hmay.possibleChunkEnd h.path
    refine ⟨cs, _, (if_pos hpos).trans hend, ?_, hcs', hcs.mono (Nat.sub_le _ _), fun hn q hq hq' => ?_,
      fun hn => ?_⟩
    · show (if s.nesting ≤ s.threshold then s.tokenEndPos - 1 else s.chunkStartPos) ≤ _
      split
      · exact Nat.sub_le _ _
      · exact hstart
    · change (if s.nesting ≤ s.threshold then s.tokenEndPos - 1 else s.chunkStartPos) ≤ q at hq
      rw [if_pos hn.le] at hq
      by_cases hlast : q = s.tokenEndPos
      · rw [hlast, h.depth]
      · rw [← hlevel, show q = s.tokenEndPos - 1 by omega]
    · show Open data s.threshold
        (if s.nesting ≤ s.threshold then s.tokenEndPos - 1 else s.chunkStartPos) _ _
      rw [if_neg (Int.not_le.2 hn)]
      exact h.opened

theorem Marks.directive {s : Flat} (h : Marks data s) (hr : Reads data s) (hne : s.rest ≠ [])
    (hm : matchRule s.condition s.atBol s.rest = (n, .directive)) :
    ∃ s₁, (s.advance n).act n .directive = some s₁ ∧ Marks data s₁ := by
  obtain ⟨hc, hbol⟩ := initial_of_directive hm
  obtain ⟨htwo, htext⟩ := hr.directive hne hm
  have htok := hr.token hne hm
  have hle := htok.le
  have hlevel (q : Nat) (hq : s.tokenEndPos < q) (hqn : q ≤ s.tokenEndPos + n) :
      level data q = s.nesting := (h.behind htok hq hqn).trans (Int.add_zero _)
  obtain ⟨cs, start, hfirst, hstart, hcs, hcs', hflat, hopen⟩ :=
    h.endBeforeLine (n := n) hr hbol
  obtain ⟨i, b, hi, hi', hb⟩ := htext
  have hmay : MayEnd data { s.advance n with printed := cs, chunkStartPos := start }
      (s.tokenEndPos + n - 1) := by
    refine ⟨hcs, hcs'.mono (by omega), fun hn hlt _ => ⟨⟨hlt, ?_, i, b, hstart.trans hi, hi', hb⟩,
      ?_, fun _ => ?_⟩⟩
    · show s.tokenEndPos + n - 1 ≤ data.length
      omega
    · exact (hlevel _ (show s.tokenEndPos < s.tokenEndPos + n - 1 by omega) (Nat.sub_le _ _)).trans hn
    · have hall (q : Nat) (hq : start ≤ q) (hq' : q ≤ s.tokenEndPos + n - 1) :
          level data q = s.nesting := by
        by_cases hold : q ≤ s.tokenEndPos
        · exact hflat hn q hq hold
        · exact hlevel q (Nat.not_le.1 hold) (by omega)
      have hfrom := hall start (Nat.le_refl _) (by omega)
      exact ⟨(hall _ (by omega) (Nat.le_refl _)).trans hfrom.symm,
        fun q hq hq' => hfrom.trans_le (hall q hq hq').ge⟩
  obtain ⟨cs₂, hend, hbefore, hbefore'⟩ := hmay.possibleChunkEnd h.path
  have hact : (s.advance n).act n .directive = some { s.advance n with
      printed := cs₂
      chunkStartPos := if s.nesting ≤ s.threshold then s.tokenEndPos + n else start } := by
    have hback : (s.advance n).tokenEndPos - n = s.tokenEndPos := Nat.add_sub_cancel _ _
    rw [Flat.act, hback, hfirst]
    show Option.bind (Flat.possibleChunkEnd _ (s.tokenEndPos + n - 1)) _ = _
    rw [hend]
    show some (Flat.possibleChunkBegin _ _) = _
    rw [Flat.possibleChunkBegin]
    show some (if s.nesting ≤ s.threshold then _ else _) = _
    by_cases hn : s.nesting ≤ s.threshold
    · rw [if_pos hn, if_pos hn]
      rfl
    · rw [if_neg hn, if_neg hn]
      exact congrArg (fun start => some { s.advance n with printed := cs₂, chunkStartPos := start })
        (if_neg hn)
  refine ⟨_, hact, Marks.begins (t := { s.advance n with chunkStartPos := start }) h.path
    (hlevel _ (Nat.lt_add_of_pos_right htok.pos) (Nat.le_refl _))
    (hstart.trans (Nat.le_add_right _ _)) ?_ (fun _ _ => ⟨hlevel _ ?_ (Nat.sub_le _ _), fun c hcmem => ?_⟩) (fun hn => ?_)
    ⟨i, b, hstart.trans hi, ?_, hb⟩ h.block hc⟩
  · show PrintedBefore data s.threshold cs₂
      (if s.nesting ≤ s.threshold then s.tokenEndPos + n else start)
    change PrintedBefore data s.threshold cs₂
      (if s.nesting ≤ s.threshold then s.tokenEndPos + n - 1 else start) at hbefore'
    split
    · exact hbefore.mono (Nat.sub_le _ _)
    · rename_i hn
      rw [if_neg hn] at hbefore'
      exact hbefore'
  · show s.tokenEndPos < s.tokenEndPos + n - 1
    omega
  · have hlast := hbefore.before c hcmem
    show c.r < s.tokenEndPos + n
    omega
  · change s.threshold < s.nesting at hn
    exact (hopen hn).extend hlevel
  · show i < s.tokenEndPos + n
    omega

theorem Marks.step {s : Flat} (h : Marks data s) (hr : Reads data s) (hne : s.rest ≠ []) :
    ∃ s₁, s.scanRule = some s₁ ∧ Marks data s₁ ∧ Reads data s₁ := by
  cases hm : matchRule s.condition s.atBol s.rest with
  | mk n action =>
    have hact : ∃ s₁, (s.advance n).act n action = some s₁ ∧ Marks data s₁ := by
      by_cases hc : s.condition = .initial
      · cases action with
        | semicolon => exact h.semicolon hr hne hc hm
        | openBrace => exact ⟨_, rfl, h.openBrace hr hne hc hm rfl⟩
        | closeBrace => exact h.closeBrace hr hne hc hm
        | directive => exact h.directive hr hne hm
        | switchTo c => exact ⟨_, rfl, h.switchTo hr hne hm⟩
        | whitespace => exact ⟨_, rfl, h.whitespace hr hne hc hm rfl⟩
        | nothing => exact ⟨_, rfl, h.nothing hr hne hm⟩
      · rcases literal_action hc hm with rfl | rfl
        · exact ⟨_, rfl, h.nothing hr hne hm⟩
        · exact ⟨_, rfl, h.switchTo hr hne hm⟩
    obtain ⟨s₁, hs₁, hmarks⟩ := hact
    refine ⟨s₁, ?_, hmarks, hr.advance hne hm hs₁⟩
    rw [Flat.scanRule, hm]
    exact hs₁

theorem scanRules_marks {s : Flat} (h : Marks data s) (hr : Reads data s) :
    ∃ s₁, s.scanRules = some s₁ ∧ Marks data s₁ ∧ Reads data s₁ ∧ s₁.rest = [] := by
  induction s using Flat.scanRules.induct with
  | case1 s hrest => exact ⟨s, Flat.scanRules_end hrest, h, hr, hrest⟩
  | case2 s b bs hrest hnone =>
    obtain ⟨s₁, hs₁, -⟩ := h.step hr (hrest ▸ List.cons_ne_nil b bs)
    cases hnone.symm.trans hs₁
  | case3 s b bs hrest s₂ hsome ih =>
    have hne : s.rest ≠ [] := hrest ▸ List.cons_ne_nil b bs
    obtain ⟨s₁, hs₁, hmarks, hreads⟩ := h.step hr hne
    obtain rfl := Option.some.inj (hsome.symm.trans hs₁)
    rw [Flat.scanRules_rule hne, hsome]
    exact ih hmarks hreads

theorem reads_start (threshold : Int) (data : Bytes) : Reads data (openFile threshold data) where
  rest := rfl
  le := Nat.zero_le _
  counted := rfl
  line _ h := absurd h (Nat.lt_irrefl 0)

/-- What the rules keep of the state, besides what they are for. -/
theorem scanRules_kept (h : Flat.scanRules s = some s₁) :
    s₁.threshold = s.threshold ∧ s₁.pathId = s.pathId ∧
      (s.yyin.isSome = true → s₁.yyin.isSome = true) := by
  refine (Flat.scanRules_induction (P := fun t => t.threshold = s.threshold ∧
    t.pathId = s.pathId ∧ (s.yyin.isSome = true → t.yyin.isSome = true)) ⟨rfl, rfl, id⟩
    (fun t t₁ ht _ hstep => ?_) h).1
  obtain ⟨hthreshold, hyyin, hpath, -⟩ := Flat.scanRule_kept hstep
  exact ⟨hthreshold.trans ht.1, hpath.trans ht.2.1, fun _ => hyyin ▸ rfl⟩

end Topformflat

end Cvise
