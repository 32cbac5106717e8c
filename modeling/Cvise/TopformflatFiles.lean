import Cvise.ToplevelChunks

namespace Cvise
set_option autoImplicit true

namespace Topformflat

/-- A chunk of a file, printed for the file that has the number. -/
def Chunk.at (i : Nat) (c : Chunk) : Chunk := { c with path := .listed i }

namespace Flat

/-- The state of a scanner that has come to the same place of the file, as one of a list. -/
def inList (before : List Chunk) (i : Nat) (waiting : List Bytes) (s : Flat) : Flat :=
  { s with pathId := .listed i, stdin := waiting, printed := before ++ s.printed.map (Chunk.at i) }

theorem inList_chunkEnd (s : Flat) (pos : Nat) :
    (s.inList before i waiting).chunkEnd pos = (s.chunkEnd pos).inList before i waiting := by
  rw [chunkEnd, chunkEnd]
  show (if pos ≤ s.chunkStartPos then _ else if s.whitespaceStartPos ≤ s.chunkStartPos ∧
    pos ≤ s.whitespaceEndPos then _ else _) = _
  by_cases hempty : pos ≤ s.chunkStartPos
  · rw [if_pos hempty, if_pos hempty]
  · by_cases hspace : s.whitespaceStartPos ≤ s.chunkStartPos ∧ pos ≤ s.whitespaceEndPos
    · rw [if_neg hempty, if_pos hspace, if_neg hempty, if_pos hspace]
    · rw [if_neg hempty, if_neg hspace, if_neg hempty, if_neg hspace]
      simp [inList, Chunk.at]

theorem inList_possibleChunkBegin (s : Flat) (pos : Nat) :
    (s.inList before i waiting).possibleChunkBegin pos =
      (s.possibleChunkBegin pos).inList before i waiting := by
  rw [possibleChunkBegin, possibleChunkBegin]
  show (if s.nesting ≤ s.threshold then _ else _) = _
  split
  · rfl
  · rfl

theorem inList_possibleChunkEnd {s : Flat} (hp : s.pathId ≠ .ended) (pos : Nat) :
    (s.inList before i waiting).possibleChunkEnd pos =
      (s.possibleChunkEnd pos).map (inList before i waiting) := by
  rw [possibleChunkEnd, possibleChunkEnd, if_neg PathId.noConfusion, if_neg hp, Option.map_some]
  show some (possibleChunkBegin (if s.nesting = s.threshold then _ else _) pos) = _
  rw [← inList_possibleChunkBegin]
  split
  · rw [inList_chunkEnd]
  · rfl

theorem inList_act {s : Flat} (hp : s.pathId ≠ .ended) (n : Nat) (action : RuleAction) :
    (s.inList before i waiting).act n action = (s.act n action).map (inList before i waiting) := by
  cases action with
  | semicolon => exact inList_possibleChunkEnd hp s.tokenEndPos
  | openBrace =>
    exact congrArg some
      (inList_possibleChunkBegin { s with nesting := s.nesting + 1 } s.tokenEndPos)
  | closeBrace =>
    exact inList_possibleChunkEnd (s := { s with nesting := s.nesting - 1 }) hp s.tokenEndPos
  | directive =>
    have hfirst : (s.inList before i waiting).endBeforeLine (s.tokenEndPos - n) =
        (s.endBeforeLine (s.tokenEndPos - n)).map (inList before i waiting) := by
      rw [endBeforeLine, endBeforeLine]
      split
      · exact inList_possibleChunkEnd hp _
      · rfl
    rw [act, act]
    show (do
      let s ← (s.inList before i waiting).endBeforeLine (s.tokenEndPos - n)
      let s ← s.possibleChunkEnd (s.tokenEndPos - 1)
      return s.possibleChunkBegin s.tokenEndPos) = _
    rw [hfirst]
    cases h₂ : s.endBeforeLine (s.tokenEndPos - n) with
    | none => rfl
    | some s₂ =>
      have hp₂ : s₂.pathId ≠ .ended := by
        rw [endBeforeLine] at h₂
        split at h₂
        · exact (possibleChunkEnd_kept h₂).pathId ▸ hp
        · exact Option.some.inj h₂ ▸ hp
      show (do
        let s ← (s₂.inList before i waiting).possibleChunkEnd (s₂.tokenEndPos - 1)
        return s.possibleChunkBegin s.tokenEndPos) = _
      rw [inList_possibleChunkEnd hp₂]
      show _ = Option.map _ (Option.bind (s₂.possibleChunkEnd (s₂.tokenEndPos - 1)) _)
      cases s₂.possibleChunkEnd (s₂.tokenEndPos - 1) with
      | none => rfl
      | some s₃ => exact congrArg some (inList_possibleChunkBegin s₃ s₃.tokenEndPos)
  | switchTo c => rfl
  | whitespace => rfl
  | nothing => rfl

theorem inList_scanRule {s : Flat} (hp : s.pathId ≠ .ended) :
    (s.inList before i waiting).scanRule = s.scanRule.map (inList before i waiting) :=
  inList_act (s := s.advance (matchRule s.condition s.atBol s.rest).1) hp _ _

theorem inList_scanRules {s : Flat} (hp : s.pathId ≠ .ended) :
    (s.inList before i waiting).scanRules = s.scanRules.map (inList before i waiting) := by
  induction s using scanRules.induct with
  | case1 s hrest =>
    rw [scanRules_end hrest, scanRules_end (s := s.inList before i waiting) hrest]
    rfl
  | case2 s b bs hrest hnone =>
    have hne : s.rest ≠ [] := hrest ▸ List.cons_ne_nil b bs
    rw [scanRules_rule hne, scanRules_rule (s := s.inList before i waiting) hne, inList_scanRule hp,
      hnone]
    rfl
  | case3 s b bs hrest s₁ hsome ih =>
    have hne : s.rest ≠ [] := hrest ▸ List.cons_ne_nil b bs
    rw [scanRules_rule hne, scanRules_rule (s := s.inList before i waiting) hne, inList_scanRule hp,
      hsome]
    exact ih ((scanRule_kept hsome).pathId.trans_ne hp)

theorem inList_remainingChunk (s : Flat) :
    (s.inList before i waiting).remainingChunk = s.remainingChunk.inList before i waiting := by
  rw [remainingChunk, remainingChunk]
  show (if s.threshold ≤ s.nesting then _ else _) = _
  split
  · exact inList_chunkEnd s s.tokenEndPos
  · rfl

end Flat

/-- The chunks of a file are in order, apart, and more than white space. -/
structure WellCut (data : Bytes) (cs : List Chunk) : Prop where
  chunks : ∀ c ∈ cs, ChunkOf data c
  ascending : cs.Pairwise fun c d => c.r ≤ d.l

/-- What remains at the end of a file is a chunk, unless it is white space. -/
theorem Marks.remainingChunk {s : Flat} (h : Marks data s) (hr : Reads data s) :
    WellCut data s.remainingChunk.printed ∧ s.printed <+: s.remainingChunk.printed := by
  have hsame : WellCut data s.printed ∧ s.printed <+: s.printed :=
    ⟨⟨fun c hc => (h.printed.chunks c hc).toChunkOf, h.printed.ascending⟩, List.prefix_refl _⟩
  rw [Flat.remainingChunk]
  split
  · rw [Flat.chunkEnd]
    split
    · exact hsame
    · rename_i hlt
      split
      · exact hsame
      · rename_i hspace
        refine ⟨⟨fun c hc => ?_, ascending_snoc h.printed.ascending h.printed.before⟩,
          List.prefix_append _ _⟩
        rcases List.mem_append.1 hc with hc | hc
        · exact hsame.1.chunks c hc
        · obtain rfl := List.mem_singleton.1 hc
          refine ⟨Nat.not_le.1 hlt, hr.le, ?_⟩
          by_contra hblank
          obtain ⟨hfrom, hto⟩ := h.blanks (Nat.not_le.1 hlt) hblank
          exact hspace ⟨hfrom, hto.ge⟩
  · exact hsame

/-- The chunks that are printed for a file by itself. -/
def chunksOf (threshold : Int) (data : Bytes) : List Chunk :=
  ((main threshold (.file data)).map (·.printed)).getD []

theorem Flat.yylex_end (h : scanRules s = some s₁) (hw : yywrap s₁ = (true, s₂)) :
    yylex s = some s₂ := by
  rw [yylex]
  split
  · rename_i hnone
    cases hnone.symm.trans h
  · rename_i s₃ hsome
    obtain rfl := Option.some.inj (hsome.symm.trans h)
    split
    · rename_i s₄ hw'
      exact congrArg some (Prod.mk.inj (hw'.symm.trans hw)).2
    · rename_i s₄ hw'
      cases hw'.symm.trans hw

theorem Flat.yylex_next (h : scanRules s = some s₁) (hw : yywrap s₁ = (false, s₂)) :
    yylex s = yylex s₂ := by
  rw [yylex]
  split
  · rename_i hnone
    cases hnone.symm.trans h
  · rename_i s₃ hsome
    obtain rfl := Option.some.inj (hsome.symm.trans h)
    split
    · rename_i s₄ hw'
      cases hw'.symm.trans hw
    · rename_i s₄ hw'
      rw [(Prod.mk.inj (hw'.symm.trans hw)).2]

theorem main_file (threshold : Int) (data : Bytes) : ∃ s,
    (openFile threshold data).scanRules = some s ∧ Marks data s ∧ Reads data s ∧
      s.threshold = threshold ∧ s.pathId = .single ∧ s.yyin.isSome = true ∧
      main threshold (.file data) = some { s.remainingChunk with pathId := .ended } := by
  obtain ⟨s, hs, hmarks, hreads, -⟩ :=
    scanRules_marks (marks_start threshold data) (reads_start threshold data)
  obtain ⟨hthreshold, hpath, hopen⟩ := scanRules_kept hs
  have hsingle : s.remainingChunk.pathId = .single := s.remainingChunk_kept.pathId.trans hpath
  refine ⟨s, hs, hmarks, hreads, hthreshold, hpath, hopen rfl, Flat.yylex_end hs ?_⟩
  rw [Flat.yywrap, if_pos hsingle]

theorem chunksOf_eq (threshold : Int) (data : Bytes) : ∃ s,
    (openFile threshold data).scanRules = some s ∧ s.pathId = .single ∧ s.yyin.isSome = true ∧
      s.threshold = threshold ∧ chunksOf threshold data = s.remainingChunk.printed := by
  obtain ⟨s, hs, -, -, hthreshold, hpath, hopen, hmain⟩ := main_file threshold data
  exact ⟨s, hs, hpath, hopen, hthreshold, by rw [chunksOf, hmain]; rfl⟩

/-- The chunks of a list of files, the first of which has the number `i`. -/
def listedChunks (threshold : Int) (files : List Bytes) (i : Nat) : List Chunk :=
  (files.zipIdx i).flatMap fun f => (chunksOf threshold f.1).map (Chunk.at f.2)

/-- Each file of a list is cut as if it were the only one. -/
theorem yylex_listed (threshold : Int) (before : List Chunk) (i : Nat) (data : Bytes)
    (files : List Bytes) :
    ∃ s, ((openFile threshold data).inList before i files).yylex = some s ∧
      s.printed = before ++ listedChunks threshold (data :: files) i := by
  induction files generalizing before i data with
  | nil =>
    obtain ⟨s, hs, hpath, hopen, hthreshold, hcs⟩ := chunksOf_eq threshold data
    have hrules : ((openFile threshold data).inList before i []).scanRules =
        (openFile threshold data).scanRules.map (Flat.inList before i []) :=
      Flat.inList_scanRules PathId.noConfusion
    rw [hs, Option.map_some] at hrules
    refine ⟨{ s.remainingChunk.inList before i [] with pathId := .ended },
      Flat.yylex_end hrules ?_, ?_⟩
    · rw [Flat.yywrap, Flat.inList_remainingChunk, if_neg PathId.noConfusion]
      rfl
    · rw [listedChunks]
      simp [Flat.inList, hcs]
  | cons f files ih =>
    obtain ⟨s, hs, hpath, hopen, hthreshold, hcs⟩ := chunksOf_eq threshold data
    have hrules : ((openFile threshold data).inList before i (f :: files)).scanRules =
        (openFile threshold data).scanRules.map (Flat.inList before i (f :: files)) :=
      Flat.inList_scanRules PathId.noConfusion
    rw [hs, Option.map_some] at hrules
    have hnext : Flat.yywrap (s.inList before i (f :: files)) =
        (false, (openFile threshold f).inList (before ++ (chunksOf threshold data).map (Chunk.at i))
          (i + 1) files) := by
      rw [Flat.yywrap, Flat.inList_remainingChunk, if_neg PathId.noConfusion]
      show (false, Flat.openNext (s.remainingChunk.inList before i (f :: files)) f files) = _
      have hyyin : s.remainingChunk.yyin.isSome = true := s.remainingChunk_kept.yyin ▸ hopen
      have hthreshold' : s.remainingChunk.threshold = threshold :=
        s.remainingChunk_kept.threshold.trans hthreshold
      simp [Flat.openNext, Flat.resetToInitialState, Flat.inList, openFile, hyyin, hthreshold', hcs,
        PathId.succ]
    obtain ⟨s₁, hs₁, hprinted⟩ := ih (before ++ (chunksOf threshold data).map (Chunk.at i)) (i + 1) f
    refine ⟨s₁, (Flat.yylex_next hrules hnext).trans hs₁, ?_⟩
    rw [hprinted, List.append_assoc]
    rfl

theorem main_listed (threshold : Int) (files : List Bytes) : ∃ s,
    main threshold (.listed files) = some s ∧ s.printed = listedChunks threshold files 0 := by
  cases files with
  | nil =>
    refine ⟨{ threshold := threshold, yyin := none, pathId := .ended, stdin := [] }, ?_, rfl⟩
    by_cases hle : threshold ≤ 0
    · simp [main, Flat.yywrap, Flat.remainingChunk, Flat.chunkEnd, hle]
    · simp [main, Flat.yywrap, Flat.remainingChunk, hle]
  | cons data files =>
    have hfirst : main threshold (.listed (data :: files)) =
        ((openFile threshold data).inList [] 0 files).yylex := by
      by_cases hle : threshold ≤ 0
      · simp [main, Flat.yywrap, Flat.remainingChunk, Flat.chunkEnd, Flat.openNext,
          Flat.resetToInitialState, Flat.inList, openFile, hle]
      · simp [main, Flat.yywrap, Flat.remainingChunk, Flat.openNext, Flat.resetToInitialState,
          Flat.inList, openFile, hle]
    rw [hfirst]
    exact yylex_listed threshold [] 0 data files

def chunksBeforeEnd (threshold : Int) (data : Bytes) : List Chunk :=
  ((openFile threshold data).scanRules.map (·.printed)).getD []

/-- The tool ends without a failed assertion. It cuts a file well, and the chunks printed before its
end are balanced, but for one that begins the file at a negative threshold. Files of a list are cut as
if each were the only one. -/
theorem toplevel_chunks (threshold : Int) :
    (∀ data, (main threshold (.file data)).isSome = true ∧
      WellCut data (chunksOf threshold data) ∧
      chunksBeforeEnd threshold data <+: chunksOf threshold data ∧
      ∀ c ∈ chunksBeforeEnd threshold data,
        Balanced data c.l c.r ↔ 0 ≤ threshold ∨ c.l ≠ 0) ∧
    ∀ files, (main threshold (.listed files)).map (·.printed) =
      some (files.zipIdx.flatMap fun f => (chunksOf threshold f.1).map (Chunk.at f.2)) := by
  refine ⟨fun data => ?_, fun files => ?_⟩
  · obtain ⟨s, hs, hmarks, hreads, hthreshold, -, -, hmain⟩ := main_file threshold data
    have hall : chunksOf threshold data = s.remainingChunk.printed := by
      rw [chunksOf, hmain]
      rfl
    have hrules : chunksBeforeEnd threshold data = s.printed := by
      rw [chunksBeforeEnd, hs]
      rfl
    obtain ⟨hcut, hprefix⟩ := hmarks.remainingChunk hreads
    refine ⟨hmain ▸ rfl, hall ▸ hcut, hall ▸ hrules ▸ hprefix, fun c hc => ?_⟩
    have hchunk := hmarks.printed.chunks c (hrules ▸ hc)
    rw [hthreshold] at hchunk
    refine ⟨fun hbalanced => ?_, hchunk.balanced⟩
    by_contra hfirst
    obtain ⟨hneg, hzero⟩ := not_or.1 hfirst
    have hlevel := hbalanced.1
    rw [hchunk.depth, not_not.1 hzero, level_zero] at hlevel
    exact hneg hlevel.ge
  · obtain ⟨s, hs, hprinted⟩ := main_listed threshold files
    rw [hs, Option.map_some, hprinted]
    rfl

/-- At the threshold -1, a closing brace is printed as a chunk by itself. -/
theorem negative_threshold_unbalanced :
    ∃ c ∈ chunksBeforeEnd (-1) [125], ¬Balanced [125] c.l c.r := by
  have hrule : (openFile (-1) [125]).scanRule = some { openFile (-1) [125] with
      yyin := some []
      atBol := false
      tokenEndPos := 1
      chunkStartPos := 1
      nesting := -1
      printed := [⟨0, 1, .single⟩] } := by
    decide +kernel
  have hrun : chunksBeforeEnd (-1) [125] = [⟨0, 1, .single⟩] := by
    have hne : (openFile (-1) [125]).rest ≠ [] := List.cons_ne_nil 125 []
    rw [chunksBeforeEnd, Flat.scanRules_rule hne, hrule, Option.bind_some, Flat.scanRules_end rfl]
    rfl
  refine ⟨⟨0, 1, .single⟩, hrun ▸ List.mem_cons_self, fun h => ?_⟩
  have hm : matchRule .initial true [125] = (1, .closeBrace) := by decide +kernel
  have hcounted : countedBraces .initial true [125] = [125] := by
    rw [countedBraces_rule (List.cons_ne_nil _ _) hm, countedBraces, if_pos (by decide)]
    rfl
  have hlevel := h.1
  rw [level, level, hcounted] at hlevel
  exact absurd hlevel (by decide)

end Topformflat

end Cvise
