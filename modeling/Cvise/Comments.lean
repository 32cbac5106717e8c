import Cvise.Backtracking
import Cvise.FileHints

namespace Cvise
set_option autoImplicit true

open Regexp

namespace CommentsPass

def slash : UInt8 := 47
def asterisk : UInt8 := 42
def newline : UInt8 := 10

/-- `/\*(?:\*(?!/)|[^*])*\*/`. -/
def multiLineRegex : Regexp UInt8 :=
  .andThen (lit slash) (.andThen (lit asterisk) (.andThen
    (.star true (.orElse (.andThen (lit asterisk) (.notAhead (lit slash))) (.one (· ≠ asterisk))))
    (.andThen (lit asterisk) (lit slash))))

/-- `//.*$`, for each line. -/
def singleLineRegex : Regexp UInt8 :=
  .andThen (lit slash) (.andThen (lit slash)
    (.andThen (.star true (.one (· ≠ newline))) (lineEnd newline)))

def multiLineVocabId : Nat := 0
def singleLineVocabId : Nat := 1

def initialVocab : List Bytes := [encode "multi-line".toList, encode "single-line".toList]

def chunkOf (type : Nat) (m : Match) : FileChunk := ⟨some type, m.start, m.stop⟩

def generateHintsForFile (prog : Bytes) : List FileChunk :=
  (finditer prog multiLineRegex).map (chunkOf multiLineVocabId) ++
    (finditer prog singleLineRegex).map (chunkOf singleLineVocabId)

def generateHints : GlobLibrary → TestCase → List Str → List Str → Except PyErr HintBundle :=
  generateFileHints initialVocab generateHintsForFile

/-- A comment from `/*` to the next `*/`. -/
def IsMultiLine (prog : Bytes) (i j : Nat) : Prop :=
  prog[i]? = some slash ∧ prog[i + 1]? = some asterisk ∧ ∃ k, i + 2 ≤ k ∧ j = k + 2 ∧
    prog[k]? = some asterisk ∧ prog[k + 1]? = some slash ∧
      ∀ p, i + 2 ≤ p → p < k → prog[p]? = some asterisk → prog[p + 1]? ≠ some slash

/-- A comment from `//` to the end of the line. -/
def IsSingleLine (prog : Bytes) (i j : Nat) : Prop :=
  prog[i]? = some slash ∧ prog[i + 1]? = some slash ∧ i + 2 ≤ j ∧
    (∀ p, i + 2 ≤ p → p < j → prog[p]? ≠ some newline) ∧
      (j = prog.length ∨ prog[j]? = some newline)

/-- An element of a multi-line comment. -/
def commentElement : Regexp UInt8 :=
  .orElse (.andThen (lit asterisk) (.notAhead (lit slash))) (.one (· ≠ asterisk))

theorem commentElement_iff (prog : Bytes) (i j : Nat) : Spans prog commentElement i j ↔
    j = i + 1 ∧ i < prog.length ∧ (prog[i]? = some asterisk → prog[i + 1]? ≠ some slash) := by
  rw [commentElement, Spans, Spans, Spans, any_iff]
  simp only [Spans, spans_lit]
  constructor
  · rintro (⟨k, ⟨hk, rfl⟩, hnot, rfl⟩ | ⟨⟨x, hx, hne⟩, rfl⟩)
    · exact ⟨rfl, (List.getElem?_eq_some_iff.1 hk).1, fun _ hslash => hnot ⟨_, hslash, rfl⟩⟩
    · refine ⟨rfl, (List.getElem?_eq_some_iff.1 hx).1, fun hstar => ?_⟩
      rw [hx, Option.some.injEq] at hstar
      exact absurd hstar (of_decide_eq_true hne)
  · rintro ⟨rfl, hlt, himp⟩
    by_cases hstar : prog[i]? = some asterisk
    · refine .inl ⟨i + 1, ⟨hstar, rfl⟩, ?_, rfl⟩
      rintro ⟨_, hslash, _⟩
      exact himp hstar hslash
    · refine .inr ⟨⟨prog[i], List.getElem?_eq_getElem hlt, decide_eq_true fun he => hstar ?_⟩, rfl⟩
      rw [List.getElem?_eq_getElem hlt, he]

theorem multiLine_iff (prog : Bytes) (i j : Nat) :
    Spans prog multiLineRegex i j ↔ IsMultiLine prog i j := by
  have hstar (i k : Nat) : Spans prog (.star true commentElement) i k ↔ i ≤ k ∧ ∀ p, i ≤ p →
      p < k → p < prog.length ∧ (prog[p]? = some asterisk → prog[p + 1]? ≠ some slash) := by
    rw [star_iff fun i j h => ((commentElement_iff prog i j).1 h).1]
    simp only [commentElement_iff, true_and]
  constructor
  · rintro ⟨_, h₁, _, h₂, k, hk, _, h₃, h₄⟩
    obtain ⟨hopen, rfl⟩ := spans_lit.1 h₁
    obtain ⟨hopen', rfl⟩ := spans_lit.1 h₂
    obtain ⟨hclose, rfl⟩ := spans_lit.1 h₃
    obtain ⟨hclose', rfl⟩ := spans_lit.1 h₄
    obtain ⟨hle, hbetween⟩ := (hstar _ _).1 hk
    exact ⟨hopen, hopen', k, hle, rfl, hclose, hclose', fun p hp hlt => (hbetween p hp hlt).2⟩
  · rintro ⟨h₁, h₂, k, hle, rfl, h₃, h₄, hbetween⟩
    have hlen := (List.getElem?_eq_some_iff.1 h₃).1
    exact ⟨_, spans_lit.2 ⟨h₁, rfl⟩, _, spans_lit.2 ⟨h₂, rfl⟩, k,
      (hstar _ _).2 ⟨hle, fun p hp hlt => ⟨hlt.trans hlen, hbetween p hp hlt⟩⟩,
      _, spans_lit.2 ⟨h₃, rfl⟩, spans_lit.2 ⟨h₄, rfl⟩⟩

theorem singleLine_iff (prog : Bytes) (i j : Nat) :
    Spans prog singleLineRegex i j ↔ IsSingleLine prog i j := by
  constructor
  · rintro ⟨_, h₁, _, h₂, k, hk, hend, rfl⟩
    obtain ⟨hopen, rfl⟩ := spans_lit.1 h₁
    obtain ⟨hopen', rfl⟩ := spans_lit.1 h₂
    obtain ⟨hle, hline⟩ := spans_many.1 hk
    refine ⟨hopen, hopen', hle, fun p hp hlt hnl => ?_, ?_⟩
    · obtain ⟨x, hx, hne⟩ := hline p hp hlt
      rw [hx, Option.some.injEq] at hnl
      exact of_decide_eq_true hne hnl
    · simpa using hend
  · rintro ⟨h₁, h₂, hle, hline, hend⟩
    have hlen : i + 1 < prog.length := (List.getElem?_eq_some_iff.1 h₂).1
    have hj : j ≤ prog.length := by
      rcases hend with rfl | hnl
      · exact le_rfl
      · exact (List.getElem?_eq_some_iff.1 hnl).1.le
    refine ⟨_, spans_lit.2 ⟨h₁, rfl⟩, _, spans_lit.2 ⟨h₂, rfl⟩, j, spans_many.2 ⟨hle, ?_⟩,
      by simpa using hend, rfl⟩
    intro p hp hlt
    have hget : prog[p]? = some prog[p] := List.getElem?_eq_getElem (hlt.trans_le hj)
    exact ⟨_, hget, decide_eq_true fun he => hline p hp hlt (by rw [hget, he])⟩

theorem multiLine_lt (h : IsMultiLine prog i j) : i < j := by
  obtain ⟨-, -, k, hle, rfl, -⟩ := h
  omega

theorem singleLine_lt (h : IsSingleLine prog i j) : i < j := by
  have hle := h.2.2.1
  omega

/-- The ranges of the chunks of a type. -/
def rangesOf (type : Nat) (chunks : List FileChunk) : List (Nat × Nat) :=
  (chunks.filter (·.type = some type)).map fun c => (c.left, c.right)

theorem rangesOf_chunkOf (type type' : Nat) (ms : List Match) :
    rangesOf type (ms.map (chunkOf type')) = if type = type' then ms.map Match.range else [] := by
  rw [rangesOf, List.filter_map, List.map_map]
  by_cases heq : type = type'
  · rw [if_pos heq, List.filter_eq_self.2 fun m _ => ?_]
    · rfl
    · exact decide_eq_true (congrArg some heq.symm)
  · rw [if_neg heq, List.filter_eq_nil_iff.2 fun m _ => ?_]
    · rfl
    · exact fun h => heq (Option.some.inj (of_decide_eq_true h)).symm

theorem rangesOf_generateHintsForFile (prog : Bytes) :
    rangesOf multiLineVocabId (generateHintsForFile prog) =
        (finditer prog multiLineRegex).map Match.range ∧
      rangesOf singleLineVocabId (generateHintsForFile prog) =
        (finditer prog singleLineRegex).map Match.range := by
  have happend (type : Nat) : rangesOf type (generateHintsForFile prog) =
      rangesOf type ((finditer prog multiLineRegex).map (chunkOf multiLineVocabId)) ++
        rangesOf type ((finditer prog singleLineRegex).map (chunkOf singleLineVocabId)) := by
    simp only [generateHintsForFile, rangesOf, List.filter_append, List.map_append]
  constructor
  · rw [happend, rangesOf_chunkOf, rangesOf_chunkOf, if_pos rfl, if_neg (by decide),
      List.append_nil]
  · rw [happend, rangesOf_chunkOf, rangesOf_chunkOf, if_neg (by decide), if_pos rfl,
      List.nil_append]

/-- The chunks are the comments of both kinds. -/
structure AreComments (prog : Bytes) (chunks : List FileChunk) : Prop where
  types : ∀ c ∈ chunks, c.type = some multiLineVocabId ∨ c.type = some singleLineVocabId
  multiLine : Leftmost (IsMultiLine prog) (rangesOf multiLineVocabId chunks)
  singleLine : Leftmost (IsSingleLine prog) (rangesOf singleLineVocabId chunks)

theorem generateHintsForFile_comments (prog : Bytes) :
    AreComments prog (generateHintsForFile prog) where
  types := by
    intro c hc
    rcases List.mem_append.1 hc with hc | hc
    · obtain ⟨m, -, rfl⟩ := List.mem_map.1 hc
      exact .inl rfl
    · obtain ⟨m, -, rfl⟩ := List.mem_map.1 hc
      exact .inr rfl
  multiLine := by
    rw [(rangesOf_generateHintsForFile prog).1]
    exact finditer_leftmost (multiLine_iff prog) fun _ _ => multiLine_lt
  singleLine := by
    rw [(rangesOf_generateHintsForFile prog).2]
    exact finditer_leftmost (singleLine_iff prog) fun _ _ => singleLine_lt

theorem mem_rangesOf {chunks : List FileChunk} {c : FileChunk} (hc : c ∈ chunks)
    (htype : c.type = some type) : (c.left, c.right) ∈ rangesOf type chunks :=
  List.mem_map_of_mem (List.mem_filter.2 ⟨hc, decide_eq_true htype⟩)

theorem chunk_within (prog : Bytes) (c : FileChunk) (hc : c ∈ generateHintsForFile prog) :
    c.left ≤ c.right ∧ c.right ≤ prog.length := by
  have hall := generateHintsForFile_comments prog
  rcases hall.types c hc with htype | htype
  · have hcomment := hall.multiLine.sound _ (mem_rangesOf hc htype)
    refine ⟨(multiLine_lt hcomment).le, ?_⟩
    obtain ⟨-, -, k, -, hright, -, hclose, -⟩ := hcomment
    have hlt := (List.getElem?_eq_some_iff.1 hclose).1
    simp only at hright
    omega
  · have hcomment := hall.singleLine.sound _ (mem_rangesOf hc htype)
    refine ⟨(singleLine_lt hcomment).le, ?_⟩
    rcases hcomment.2.2.2.2 with hend | hend
    · exact hend.le
    · exact (List.getElem?_eq_some_iff.1 hend).1.le

/-- The hints of the pass are the comments of the files it claims, and any of them can be deleted
together, overlapping or not. -/
theorem comment_hints (hnamed : tc.Named) (lib : GlobLibrary)
    (claimFiles claimedByOthersFiles : List Str) :
    ∃ b, generateHints lib tc claimFiles claimedByOthersFiles = .ok b ∧
      HintsOf generateHintsForFile tc
        (filterFilesByPatterns lib tc claimFiles claimedByOthersFiles) b ∧
      (∀ prog, AreComments prog (generateHintsForFile prog)) ∧
      SubsetsDelete tc (filterFilesByPatterns lib tc claimFiles claimedByOthersFiles) b := by
  obtain ⟨b, hok, -, hb⟩ := generateFileHints_ok hnamed initialVocab generateHintsForFile lib
    claimFiles claimedByOthersFiles
  exact ⟨b, hok, hb, generateHintsForFile_comments, hb.subsetsDelete chunk_within⟩

/-- A makefile, and a program `a//b\n/*c*/`. -/
def commentedTree : DirTree where
  entries := [(["Makefile".toList], .file []),
    (["a.c".toList], .file [97, 47, 47, 98, 10, 47, 42, 99, 42, 47])]
  sorted := by decide
  rooted := by decide

theorem commentedTree_named : TestCase.Named (.dir commentedTree) := by
  unfold TestCase.Named DirTree.Named
  decide

theorem comment_hints_tree : ∃ b,
    generateHints makefileLibrary (.dir commentedTree) [] ["**/Makefile".toList] = .ok b ∧
      HintsOf generateHintsForFile (.dir commentedTree)
        (filterFilesByPatterns makefileLibrary (.dir commentedTree) [] ["**/Makefile".toList]) b ∧
      (∀ prog, AreComments prog (generateHintsForFile prog)) ∧
      SubsetsDelete (.dir commentedTree)
        (filterFilesByPatterns makefileLibrary (.dir commentedTree) [] ["**/Makefile".toList]) b :=
  comment_hints commentedTree_named makefileLibrary [] ["**/Makefile".toList]

section removed

variable {prog : Bytes}

/-- The positions outside of the comments that go to the end of the line. -/
def outsideSingleLine (prog : Bytes) (i : Nat) : Bool :=
  ¬ ∃ s ∈ rangesOf singleLineVocabId (generateHintsForFile prog), s.1 ≤ i ∧ i < s.2

theorem outside_newline (h : prog[i]? = some newline) : outsideSingleLine prog i = true := by
  refine decide_eq_true ?_
  rintro ⟨s, hs, hle, hlt⟩
  obtain ⟨hopen, hopen', hlen, hline, -⟩ :=
    (generateHintsForFile_comments prog).singleLine.sound s hs
  rcases Nat.lt_or_ge i (s.1 + 2) with hin | hin
  · obtain rfl | rfl : i = s.1 ∨ i = s.1 + 1 := by omega
    · cases hopen.symm.trans h
    · cases hopen'.symm.trans h
  · exact hline i hin hlt h

theorem exists_singleLine (h : prog[q]? = some slash) (h' : prog[q + 1]? = some slash) :
    ∃ j, IsSingleLine prog q j := by
  have hlen := (List.getElem?_eq_some_iff.1 h').1
  have hends : ∃ p, q + 2 ≤ p ∧ (p = prog.length ∨ prog[p]? = some newline) :=
    ⟨prog.length, hlen, .inl rfl⟩
  obtain ⟨hle, hend⟩ := Nat.find_spec hends
  refine ⟨Nat.find hends, h, h', hle, fun p hp hlt hnl => ?_, hend⟩
  exact Nat.find_min hends hlt ⟨hp, .inr hnl⟩

/-- Without these comments no two slashes are left next to each other. -/
theorem no_slashes_left : ¬ [slash, slash] <:+: keptAt (outsideSingleLine prog) prog := by
  intro h
  obtain ⟨q, q', hlt, hq, hq', hkeep, hkeep', hbetween⟩ := pair_infix_keptAt h
  have hall := (generateHintsForFile_comments prog).singleLine
  rw [outsideSingleLine, decide_eq_true_iff] at hkeep hkeep'
  rcases Nat.eq_or_lt_of_le (Nat.succ_le_of_lt hlt) with rfl | hnext
  · -- Both slashes were together before, and start a comment.
    obtain ⟨j, hj⟩ := exists_singleLine hq hq'
    obtain ⟨s, hs, hin⟩ := hall.complete q j hj
    exact hkeep ⟨s, hs, hin⟩
  · -- A comment started between them, and its line goes on behind it.
    have hskip := hbetween (q + 1) (Nat.lt_succ_self q) hnext
    rw [outsideSingleLine, decide_eq_false_iff_not, not_not] at hskip
    obtain ⟨s, hs, hle, hin⟩ := hskip
    have hstart : q < s.1 := Nat.lt_of_not_le fun hqs => hkeep ⟨s, hs, hqs, by omega⟩
    have hstop : s.2 ≤ q' := Nat.le_of_not_lt fun hqs => hkeep' ⟨s, hs, by omega, hqs⟩
    have hlen := (List.getElem?_eq_some_iff.1 hq').1
    have hnl : prog[s.2]? = some newline :=
      (hall.sound s hs).2.2.2.2.resolve_left (hstop.trans_lt hlen).ne
    rcases Nat.eq_or_lt_of_le hstop with heq | hbefore
    · rw [heq] at hnl
      cases hnl.symm.trans hq'
    · have hnone := hbetween s.2 (by omega) hbefore
      rw [outside_newline hnl] at hnone
      cases hnone

end removed

/-- Deleting all comments that go to the end of the line leaves no such comment, and all lines. -/
theorem single_line_removed (hnamed : tc.Named) (lib : GlobLibrary)
    (claimFiles claimedByOthersFiles : List Str) :
    ∃ b dest report, generateHints lib tc claimFiles claimedByOthersFiles = .ok b ∧
      applyHints [{ b with hints := b.hints.filter fun h => h.type = some singleLineVocabId }] tc =
        .ok (some (some dest, report)) ∧
      ∀ path ∈ filterFilesByPatterns lib tc claimFiles claimedByOthersFiles, ∃ data out,
        tc.HasFile path data ∧ dest.HasFile path out ∧ ¬ [slash, slash] <:+: out ∧
          out.count newline = data.count newline := by
  obtain ⟨b, hok, -, hb⟩ := generateFileHints_ok hnamed initialVocab generateHintsForFile lib
    claimFiles claimedByOthersFiles
  obtain ⟨dest, report, happly, hfiles⟩ := hb.subsetsDelete chunk_within
    (b.hints.filter fun h => h.type = some singleLineVocabId) fun h hh => (List.mem_filter.1 hh).1
  refine ⟨b, dest, report, hok, happly, fun path hpath => ?_⟩
  obtain ⟨data, hdata, -⟩ := hb.complete path hpath
  have hout := (hfiles path data hdata).1
  have hkept : (fun i => decide ¬ HintBundle.Takes { b with
      hints := b.hints.filter fun h => h.type = some singleLineVocabId } path i) =
        outsideSingleLine data := by
    funext i
    rw [outsideSingleLine, decide_eq_decide, not_iff_not,
      hb.takes_iff hpath hdata fun type => type = some singleLineVocabId]
    constructor
    · rintro ⟨c, hc, htype, hin⟩
      exact ⟨_, mem_rangesOf hc (of_decide_eq_true htype), hin⟩
    · rintro ⟨s, hs, hin⟩
      obtain ⟨c, hc, rfl⟩ := List.mem_map.1 hs
      exact ⟨c, (List.mem_filter.1 hc).1, (List.mem_filter.1 hc).2, hin⟩
  rw [hkept] at hout
  exact ⟨data, _, hdata, hout, no_slashes_left, count_keptAt fun i => outside_newline⟩

theorem single_line_removed_tree : ∃ b dest report,
    generateHints makefileLibrary (.dir commentedTree) [] ["**/Makefile".toList] = .ok b ∧
      applyHints [{ b with hints := b.hints.filter fun h => h.type = some singleLineVocabId }]
        (.dir commentedTree) = .ok (some (some dest, report)) ∧
      ∀ path ∈ filterFilesByPatterns makefileLibrary (.dir commentedTree) [] ["**/Makefile".toList],
        ∃ data out, TestCase.HasFile (.dir commentedTree) path data ∧ dest.HasFile path out ∧
          ¬ [slash, slash] <:+: out ∧ out.count newline = data.count newline :=
  single_line_removed commentedTree_named makefileLibrary [] ["**/Makefile".toList]

end CommentsPass

end Cvise
