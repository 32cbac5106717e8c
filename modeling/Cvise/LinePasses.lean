import Cvise.Backtracking
import Cvise.FileHints
import Cvise.LineSplitting
import Cvise.MakefileParser

namespace Cvise
set_option autoImplicit true

open Regexp MakefileParser

/-- Where a line starts, or another piece of a text. -/
def pieceStart (pieces : List Bytes) (i : Nat) : Nat := ((pieces.take i).flatten).length

def lineChunks (types : Bytes → List (Option Nat)) (filePos : Nat) : List Bytes → List FileChunk
  | [] => []
  | line :: lines =>
    (types line).map (fun t => ⟨t, filePos, filePos + line.length⟩) ++
      lineChunks types (filePos + line.length) lines

/-- `^` without the flag for lines. -/
def textStart : Regexp UInt8 := .look fun _ i => i = 0

def isDecimalByte (b : UInt8) : Bool := 48 ≤ b && b ≤ 57

namespace BlankPass

/-- `^\s*$`. -/
def blankLine : Regexp UInt8 :=
  .andThen textStart (.andThen (.star true (.one isSpaceByte)) (stringEnd 10))

/-- `^#`. -/
def hashLine : Regexp UInt8 := .andThen textStart (lit 35)

def patterns : List (Bytes × Regexp UInt8) :=
  [(encode "blankline".toList, blankLine), (encode "hashline".toList, hashLine)]

/-- The patterns that match a line. -/
def types (line : Bytes) : List (Option Nat) :=
  (patterns.zipIdx.filter fun p => (matchAt line p.1.2 0).isSome).map fun p => some p.2

def generateHintsForFile (contents : Bytes) : List FileChunk :=
  lineChunks types 0 (byteLines contents)

def generateHints : GlobLibrary → TestCase → List Str → List Str → Except PyErr HintBundle :=
  generateFileHints (patterns.map Prod.fst) generateHintsForFile

end BlankPass

namespace LineMarkersPass

/-- `^\s*#\s*[0-9]+`. -/
def lineRegex : Regexp UInt8 :=
  .andThen textStart (.andThen (.star true (.one isSpaceByte)) (.andThen (lit 35)
    (.andThen (.star true (.one isSpaceByte)) (.andThen (.one isDecimalByte)
      (.star true (.one isDecimalByte))))))

/-- Whether `search` finds the expression anywhere in the line. -/
def isMarker (line : Bytes) : Bool :=
  (List.range (line.length + 1)).any fun i => (matchAt line lineRegex i).isSome

def chunks (contents : Bytes) : List FileChunk :=
  lineChunks (fun line => if isMarker line then [none] else []) 0 (byteLines contents)

/-- `generate_hints`, of a test case that is a file. -/
def generateHints (testCase : TestCase) : Except PyErr HintBundle := do
  let contents ← testCase.readBytes []
  return { hints := (chunks contents).map (FileChunk.toHint none) }

end LineMarkersPass

namespace LinesPass

/-- The loop of `_generate_hints_for_text_lines`. The newline that ends the file is not consumed. -/
def textLineChunks (filePos : Nat) : List Bytes → List FileChunk
  | [] => []
  | line :: lines =>
    let endPos := if lines = [] ∧ line.getLast? = some 10 then filePos + line.length - 1
      else filePos + line.length
    (if filePos < endPos then [⟨none, filePos, endPos⟩] else []) ++
      textLineChunks (filePos + line.length) lines

def generateHintsForTextLines (contents : Bytes) : List FileChunk :=
  textLineChunks 0 (byteLines contents)

def hintsOfFiles (chunks : Bytes → List FileChunk) (testCase : TestCase)
    (paths : List (RelPath × Nat)) : Except PyErr (List (List Hint)) :=
  paths.mapM fun p => do
    let contents ← testCase.readBytes p.1
    let pathId := if testCase.isDir then some p.2 else none
    return (chunks contents).map (FileChunk.toHint pathId)

/-- `generate_hints` for the argument `None`. The vocabulary holds the paths of all files. -/
def generateHints (lib : GlobLibrary) (testCase : TestCase)
    (claimFiles claimedByOthersFiles : List Str) : Except PyErr HintBundle := do
  let paths := filterFilesByPatterns lib testCase claimFiles claimedByOthersFiles
  if paths = [] then
    return { hints := [] }
  let vocab := if testCase.isDir then paths.map fun p => encode (strOfPath p) else []
  let hints ← hintsOfFiles generateHintsForTextLines testCase paths.zipIdx
  return { hints := hints.flatten, vocabulary := vocab }

end LinesPass

variable {pieces : List Bytes} {lines : List Bytes} {tc : TestCase} {paths : List RelPath}
  {b : HintBundle}

theorem pieceStart_succ (h : pieces[i]? = some piece) :
    pieceStart pieces (i + 1) = pieceStart pieces i + piece.length := by
  rw [pieceStart, List.take_add_one, h, Option.toList_some, List.flatten_append, List.length_append,
    List.flatten_singleton]
  rfl

theorem pieceStart_cons (piece : Bytes) (pieces : List Bytes) (i : Nat) :
    pieceStart (piece :: pieces) (i + 1) = piece.length + pieceStart pieces i := by
  rw [pieceStart, List.take_succ_cons, List.flatten_cons, List.length_append]
  rfl

theorem pieceStart_mono (pieces : List Bytes) (h : i ≤ j) :
    pieceStart pieces i ≤ pieceStart pieces j := by
  have hpre : (pieces.take i).flatten <+: (pieces.take j).flatten := by
    obtain ⟨rest, hrest⟩ := List.take_prefix_take_left h (l := pieces)
    exact ⟨rest.flatten, by rw [← List.flatten_append, hrest]⟩
  exact hpre.length_le

theorem pieceStart_le (pieces : List Bytes) (i : Nat) :
    pieceStart pieces i ≤ pieces.flatten.length := by
  have hmono := pieceStart_mono pieces (Nat.le_add_right i pieces.length)
  rwa [pieceStart, pieceStart, List.take_of_length_le (Nat.le_add_left _ _)] at hmono

theorem piece_unique (h : pieces[i]? = some piece) (h' : pieces[j]? = some piece')
    (hp : pieceStart pieces i ≤ p) (hlt : p < pieceStart pieces i + piece.length)
    (hp' : pieceStart pieces j ≤ p) (hlt' : p < pieceStart pieces j + piece'.length) : i = j := by
  rw [← pieceStart_succ h] at hlt
  rw [← pieceStart_succ h'] at hlt'
  rcases Nat.lt_trichotomy i j with hij | heq | hji
  · have hmono := pieceStart_mono pieces (show i + 1 ≤ j from hij)
    omega
  · exact heq
  · have hmono := pieceStart_mono pieces (show j + 1 ≤ i from hji)
    omega

theorem keptAt_flatten (pieces : List Bytes) (keep keepPiece : Nat → Bool) (k m : Nat)
    (h : ∀ i piece, pieces[i]? = some piece → ∀ p, p < piece.length →
      keep (k + pieceStart pieces i + p) = keepPiece (m + i)) :
    ((pieces.flatten.zipIdx k).filter fun x => keep x.2).map Prod.fst =
      (((pieces.zipIdx m).filter fun x => keepPiece x.2).map Prod.fst).flatten := by
  induction pieces generalizing k m with
  | nil => rfl
  | cons piece pieces ih =>
    have hhead (p : Nat) (hp : p < piece.length) : keep (k + p) = keepPiece m := h 0 piece rfl p hp
    have htail := ih (k + piece.length) (m + 1) fun i piece' hi p hp => by
      have := h (i + 1) piece' hi p hp
      rwa [pieceStart_cons, ← Nat.add_assoc k, Nat.add_comm i, ← Nat.add_assoc m] at this
    have hpiece : ((piece.zipIdx k).filter fun x => keep x.2) =
        if keepPiece m then piece.zipIdx k else [] := by
      split
      · rename_i hkeep
        refine List.filter_eq_self.2 fun x hx => ?_
        obtain ⟨hle, hlt, -⟩ := List.mem_zipIdx hx
        rw [← Nat.add_sub_cancel' hle, hhead _ (by omega), hkeep]
      · rename_i hkeep
        refine List.filter_eq_nil_iff.2 fun x hx => ?_
        obtain ⟨hle, hlt, -⟩ := List.mem_zipIdx hx
        rw [← Nat.add_sub_cancel' hle, hhead _ (by omega)]
        exact hkeep
    rw [List.flatten_cons, List.zipIdx_append, List.filter_append, List.map_append, hpiece, htail,
      List.zipIdx_cons, List.filter_cons]
    cases keepPiece m with
    | true =>
      simp only [if_true, List.map_cons, List.flatten_cons, List.zipIdx_map_fst]
    | false => simp

/-- The chunks of a file are whole pieces of it. -/
structure CutsPieces (pieces : Bytes → List Bytes) (chunks : Bytes → List FileChunk) : Prop where
  flatten : ∀ data, (pieces data).flatten = data
  whole : ∀ data, ∀ c ∈ chunks data, ∃ i piece, (pieces data)[i]? = some piece ∧
    c.left = pieceStart (pieces data) i ∧ c.right = pieceStart (pieces data) i + piece.length

/-- Whichever of the hints are applied, a file keeps the pieces that none of them takes, and only
the files that are left to the pass lose anything. -/
def SubsetsDrop (pieces : Bytes → List Bytes) (tc : TestCase) (paths : List RelPath)
    (b : HintBundle) : Prop :=
  ∀ hs, (∀ h ∈ hs, h ∈ b.hints) → ∃ dest report,
    applyHints [{ b with hints := hs }] tc = .ok (some (some dest, report)) ∧
      ∀ path data, tc.HasFile path data →
        dest.HasFile path (keptAt
          (fun i => decide ¬ { b with hints := hs }.Takes path (pieceStart (pieces data) i))
            (pieces data)).flatten ∧
          (path ∉ paths → dest.HasFile path data)

section drop

variable {cut : Bytes → List Bytes} {chunks : Bytes → List FileChunk}

theorem CutsPieces.within (hcuts : CutsPieces cut chunks) (data : Bytes) (c : FileChunk)
    (hc : c ∈ chunks data) : c.left ≤ c.right ∧ c.right ≤ data.length := by
  obtain ⟨i, piece, hi, hleft, hright⟩ := hcuts.whole data c hc
  refine ⟨by omega, ?_⟩
  rw [hright, ← pieceStart_succ hi]
  exact (pieceStart_le _ _).trans_eq (by rw [hcuts.flatten])

theorem CutsPieces.takes_piece (hcuts : CutsPieces cut chunks) (hb : HintsOf chunks tc paths b)
    (hdata : tc.HasFile path data) {hs : List Hint} (hsub : ∀ h ∈ hs, h ∈ b.hints)
    (hi : (cut data)[i]? = some piece) (hp : p < piece.length) (hq : q < piece.length)
    (h : HintBundle.Takes { b with hints := hs } path (pieceStart (cut data) i + p)) :
    HintBundle.Takes { b with hints := hs } path (pieceStart (cut data) i + q) := by
  obtain ⟨hint, hh, patch, hpatch, hpath, hle, hlt⟩ := h
  refine ⟨hint, hh, patch, hpatch, hpath, ?_⟩
  obtain ⟨path', -, data', hdata', c, hc, pathId, hid, rfl⟩ := hb.sound hint (hsub hint hh)
  obtain rfl := List.mem_singleton.1 hpatch
  cases hid.symm.trans hpath
  cases hasFile_unique hdata hdata'
  obtain ⟨j, piece', hj, hleft, hright⟩ := hcuts.whole data c hc
  simp only [Option.getD_some, hleft, hright] at hle hlt ⊢
  obtain rfl := piece_unique hi hj (Nat.le_add_right _ p) (by omega) hle hlt
  cases hi.symm.trans hj
  exact ⟨Nat.le_add_right _ _, by omega⟩

theorem CutsPieces.subsetsDrop (hcuts : CutsPieces cut chunks) (hb : HintsOf chunks tc paths b) :
    SubsetsDrop cut tc paths b := by
  intro hs hsub
  obtain ⟨dest, report, happly, hfiles⟩ := hb.subsetsDelete hcuts.within hs hsub
  refine ⟨dest, report, happly, fun path data hdata => ?_⟩
  obtain ⟨hout, hother⟩ := hfiles path data hdata
  refine ⟨?_, hother⟩
  have hkept := keptAt_flatten (cut data)
    (fun i => decide ¬ HintBundle.Takes { b with hints := hs } path i)
    (fun i => decide ¬ HintBundle.Takes { b with hints := hs } path (pieceStart (cut data) i)) 0 0
    fun i piece hi p hp => by
      rw [Nat.zero_add, Nat.zero_add, decide_eq_decide, not_iff_not]
      exact ⟨fun h => hcuts.takes_piece hb hdata hsub hi hp (q := 0) (by omega) h,
        fun h => hcuts.takes_piece hb hdata hsub hi (p := 0) (by omega) hp h⟩
  rw [hcuts.flatten] at hkept
  rw [keptAt, hkept] at hout
  exact hout

end drop

theorem mem_lineChunks {types : Bytes → List (Option Nat)} {k : Nat} :
    c ∈ lineChunks types k lines ↔ ∃ i line t, lines[i]? = some line ∧ t ∈ types line ∧
      c = ⟨t, k + pieceStart lines i, k + pieceStart lines i + line.length⟩ := by
  induction lines generalizing k with
  | nil => simp [lineChunks]
  | cons line lines ih =>
    rw [lineChunks, List.mem_append, ih, List.mem_map]
    constructor
    · rintro (⟨t, ht, rfl⟩ | ⟨i, line', t, hi, ht, rfl⟩)
      · exact ⟨0, line, t, rfl, ht, rfl⟩
      · refine ⟨i + 1, line', t, hi, ht, ?_⟩
        rw [pieceStart_cons, Nat.add_assoc k]
    · rintro ⟨i, line', t, hi, ht, rfl⟩
      cases i with
      | zero =>
        cases hi
        exact .inl ⟨t, ht, rfl⟩
      | succ i =>
        refine .inr ⟨i, line', t, hi, ht, ?_⟩
        rw [pieceStart_cons, ← Nat.add_assoc k]

theorem byteLines_eq (data : Bytes) : byteLines data = splitLines 10 data := by
  induction data with
  | nil => rfl
  | cons x data ih =>
    rw [byteLines, splitLines, ih]
    cases splitLines 10 data with
    | nil => rfl
    | cons line lines => rfl

theorem flatten_byteLines (data : Bytes) : (byteLines data).flatten = data :=
  byteLines_eq data ▸ flatten_splitLines 10 data

theorem areLines_byteLines (data : Bytes) : AreLines 10 (byteLines data) :=
  byteLines_eq data ▸ areLines_splitLines 10 data

theorem keptAt_eq_filter {keep : Nat → Bool} {q : β → Bool} {data : List β}
    (h : ∀ i x, data[i]? = some x → keep i = q x) : keptAt keep data = data.filter q := by
  have hzip : (data.zipIdx.filter fun x => keep x.2) = data.zipIdx.filter fun x => q x.1 :=
    List.filter_congr fun x hx => h _ _ (List.mem_zipIdx_iff_getElem?.1 hx)
  have hmap : data.filter q = (data.zipIdx.map Prod.fst).filter q := by rw [List.zipIdx_map_fst]
  rw [keptAt, hzip, hmap, List.filter_map]
  rfl

section lines

variable {types : Bytes → List (Option Nat)}

theorem lineChunks_cuts (types : Bytes → List (Option Nat)) :
    CutsPieces byteLines fun data => lineChunks types 0 (byteLines data) where
  flatten := flatten_byteLines
  whole := by
    intro data c hc
    obtain ⟨i, line, t, hi, -, rfl⟩ := mem_lineChunks.1 hc
    exact ⟨i, line, hi, Nat.zero_add _, by rw [Nat.zero_add]⟩

/-- The lines of some types are deleted, and the others are lines again. -/
theorem lineChunks_filter
    (hb : HintsOf (fun data => lineChunks types 0 (byteLines data)) tc paths b)
    (chosen : Option Nat → Bool) : ∃ dest report,
    applyHints [{ b with hints := b.hints.filter fun h => chosen h.type }] tc =
      .ok (some (some dest, report)) ∧
    ∀ path ∈ paths, ∀ data, tc.HasFile path data → ∃ out, dest.HasFile path out ∧
      byteLines out = (byteLines data).filter fun line => ¬ (types line).any chosen := by
  obtain ⟨dest, report, happly, hfiles⟩ := (lineChunks_cuts types).subsetsDrop hb
    (b.hints.filter fun h => chosen h.type) fun h hh => (List.mem_filter.1 hh).1
  refine ⟨dest, report, happly, fun path hpath data hdata => ⟨_, (hfiles path data hdata).1, ?_⟩⟩
  have hall := areLines_byteLines data
  have hkept : keptAt (fun i => decide ¬ HintBundle.Takes
      { b with hints := b.hints.filter fun h => chosen h.type } path
        (pieceStart (byteLines data) i)) (byteLines data) =
      (byteLines data).filter fun line => ¬ (types line).any chosen := by
    refine keptAt_eq_filter fun i line hi => ?_
    rw [decide_eq_decide, not_iff_not, hb.takes_iff hpath hdata, List.any_eq_true]
    have hlen := List.length_pos_of_ne_nil (hall.single line (List.mem_of_getElem? hi)).1
    constructor
    · rintro ⟨c, hc, hchosen, hle, hlt⟩
      obtain ⟨j, line', t, hj, ht, rfl⟩ := mem_lineChunks.1 hc
      rw [Nat.zero_add] at hle hlt
      obtain rfl := piece_unique hi hj le_rfl (by omega) hle hlt
      cases hi.symm.trans hj
      exact ⟨t, ht, hchosen⟩
    · rintro ⟨t, ht, hchosen⟩
      refine ⟨_, mem_lineChunks.2 ⟨i, line, t, hi, ht, rfl⟩, hchosen, ?_, ?_⟩
      · exact (Nat.zero_add _).le
      · simp only [Nat.zero_add]
        omega
  rw [hkept]
  rw [byteLines_eq]
  exact (hall.sublist List.filter_sublist).splitLines_flatten

end lines

theorem spans_textStart {line : Bytes} : Spans line textStart i j ↔ i = 0 ∧ j = i := by
  rw [textStart, Spans, decide_eq_true_iff]

namespace BlankPass

def IsBlank (line : Bytes) : Prop := ∀ x ∈ line, isSpaceByte x = true

instance (line : Bytes) : Decidable (IsBlank line) := inferInstanceAs (Decidable (∀ x ∈ line, _))

theorem blankLine_iff (line : Bytes) : (matchAt line blankLine 0).isSome = true ↔ IsBlank line := by
  rw [matchAt_isSome]
  constructor
  · rintro ⟨j, _, hstart, k, hblank, hend⟩
    obtain ⟨-, rfl⟩ := spans_textStart.1 hstart
    have hspaces := (spans_many.1 hblank).2
    intro x hx
    obtain ⟨p, hp⟩ := List.mem_iff_getElem?.1 hx
    have hlt := (List.getElem?_eq_some_iff.1 hp).1
    rcases Nat.lt_or_ge p k with hin | hout
    · obtain ⟨y, hy, hspace⟩ := hspaces p (Nat.zero_le p) hin
      cases hp.symm.trans hy
      exact hspace
    · -- Only a newline at the end is left.
      obtain ⟨hend, -⟩ := hend
      rw [Bool.or_eq_true, Bool.and_eq_true, decide_eq_true_iff, decide_eq_true_iff,
        decide_eq_true_iff] at hend
      rcases hend with rfl | ⟨hk, hnl⟩
      · omega
      · obtain rfl : p = k := by omega
        cases hp.symm.trans hnl
        rfl
  · intro h
    refine ⟨line.length, 0, spans_textStart.2 ⟨rfl, rfl⟩, line.length, spans_many.2 ?_, ?_⟩
    · refine ⟨Nat.zero_le _, fun p _ hp => ⟨_, List.getElem?_eq_getElem hp, ?_⟩⟩
      exact h _ (List.getElem_mem hp)
    · exact ⟨by simp, rfl⟩

theorem hashLine_iff (line : Bytes) :
    (matchAt line hashLine 0).isSome = true ↔ line.head? = some 35 := by
  rw [matchAt_isSome, List.head?_eq_getElem?]
  constructor
  · rintro ⟨j, _, hstart, hlit⟩
    obtain ⟨-, rfl⟩ := spans_textStart.1 hstart
    exact (spans_lit.1 hlit).1
  · intro h
    exact ⟨1, 0, spans_textStart.2 ⟨rfl, rfl⟩, spans_lit.2 ⟨h, rfl⟩⟩

theorem types_any (line : Bytes) (chosen : Option Nat → Bool) : (types line).any chosen = true ↔
    chosen (some 0) = true ∧ IsBlank line ∨ chosen (some 1) = true ∧ line.head? = some 35 := by
  rw [← blankLine_iff, ← hashLine_iff, types]
  simp only [patterns, List.zipIdx_cons, List.zipIdx_nil, List.any_map, List.filter_cons,
    List.filter_nil]
  cases (matchAt line blankLine 0).isSome <;> cases (matchAt line hashLine 0).isSome <;> simp

/-- Any of the hints can be applied together, and delete whole lines. All hints of some types delete
the blank lines or those that start with a hash sign, and the file has just the other lines then. -/
theorem blank_hints (hnamed : tc.Named) (lib : GlobLibrary)
    (claimFiles claimedByOthersFiles : List Str) :
    ∃ b, generateHints lib tc claimFiles claimedByOthersFiles = .ok b ∧
      SubsetsDrop byteLines tc (filterFilesByPatterns lib tc claimFiles claimedByOthersFiles) b ∧
      ∀ chosen : Option Nat → Bool, ∃ dest report,
        applyHints [{ b with hints := b.hints.filter fun h => chosen h.type }] tc =
          .ok (some (some dest, report)) ∧
        ∀ path ∈ filterFilesByPatterns lib tc claimFiles claimedByOthersFiles, ∀ data,
          tc.HasFile path data → ∃ out, dest.HasFile path out ∧
            byteLines out = (byteLines data).filter fun line =>
              ¬ (chosen (some 0) = true ∧ IsBlank line ∨
                chosen (some 1) = true ∧ line.head? = some 35) := by
  obtain ⟨b, hok, -, hb⟩ := generateFileHints_ok hnamed (patterns.map Prod.fst)
    generateHintsForFile lib claimFiles claimedByOthersFiles
  refine ⟨b, hok, (lineChunks_cuts types).subsetsDrop hb, fun chosen => ?_⟩
  obtain ⟨dest, report, happly, hfiles⟩ := lineChunks_filter hb chosen
  refine ⟨dest, report, happly, fun path hpath data hdata => ?_⟩
  obtain ⟨out, hout, hlines⟩ := hfiles path hpath data hdata
  refine ⟨out, hout, hlines.trans (List.filter_congr fun line _ => ?_)⟩
  rw [decide_eq_decide, not_iff_not]
  exact types_any line chosen

/-- A makefile, and a program of the lines `#a`, an empty one and `b`. -/
def linedTree : DirTree where
  entries := [(["Makefile".toList], .file []), (["a.c".toList], .file [35, 97, 10, 10, 98, 10])]
  sorted := by decide
  rooted := by decide

theorem linedTree_named : TestCase.Named (.dir linedTree) := by
  unfold TestCase.Named DirTree.Named
  decide

theorem blank_hints_tree :
    ∃ b, generateHints makefileLibrary (.dir linedTree) [] ["**/Makefile".toList] = .ok b ∧
      SubsetsDrop byteLines (.dir linedTree)
        (filterFilesByPatterns makefileLibrary (.dir linedTree) [] ["**/Makefile".toList]) b ∧
      ∀ chosen : Option Nat → Bool, ∃ dest report,
        applyHints [{ b with hints := b.hints.filter fun h => chosen h.type }] (.dir linedTree) =
          .ok (some (some dest, report)) ∧
        ∀ path ∈ filterFilesByPatterns makefileLibrary (.dir linedTree) [] ["**/Makefile".toList],
          ∀ data, TestCase.HasFile (.dir linedTree) path data → ∃ out, dest.HasFile path out ∧
            byteLines out = (byteLines data).filter fun line =>
              ¬ (chosen (some 0) = true ∧ IsBlank line ∨
                chosen (some 1) = true ∧ line.head? = some 35) :=
  blank_hints linedTree_named makefileLibrary [] ["**/Makefile".toList]

end BlankPass

namespace LineMarkersPass

/-- Blanks, a hash sign, blanks and a digit. -/
def IsMarker (text : Bytes) : Prop := ∃ i j : Nat, i < j ∧ text[i]? = some 35 ∧
  (∃ d, text[j]? = some d ∧ isDecimalByte d = true) ∧
  (∀ p, p < i → ∃ x, text[p]? = some x ∧ isSpaceByte x = true) ∧
  ∀ p, i < p → p < j → ∃ x, text[p]? = some x ∧ isSpaceByte x = true

theorem isMarker_iff (line : Bytes) : isMarker line = true ↔ IsMarker line := by
  simp only [isMarker, List.any_eq_true, matchAt_isSome]
  constructor
  · rintro ⟨_, -, _, _, hstart, i, hblanks, k, hhash, j, hblanks', l, hdigit, -⟩
    obtain ⟨rfl, rfl⟩ := spans_textStart.1 hstart
    obtain ⟨hash, rfl⟩ := spans_lit.1 hhash
    obtain ⟨hle, hblanks'⟩ := spans_many.1 hblanks'
    refine ⟨i, j, hle, hash, (spans_one.1 hdigit).1, fun p => ?_, hblanks'⟩
    exact (spans_many.1 hblanks).2 p (Nat.zero_le p)
  · rintro ⟨i, j, hlt, hhash, hdigit, hblanks, hblanks'⟩
    refine ⟨0, List.mem_range.2 (Nat.succ_pos _), j + 1, 0, spans_textStart.2 ⟨rfl, rfl⟩, i,
      spans_many.2 ⟨Nat.zero_le i, fun p _ => hblanks p⟩, i + 1, spans_lit.2 ⟨hhash, rfl⟩, j,
      spans_many.2 ⟨hlt, hblanks'⟩, j + 1, spans_one.2 ⟨hdigit, rfl⟩, ?_⟩
    exact spans_many.2 ⟨le_rfl, fun q hq hlt => absurd hlt hq.not_gt⟩

instance (line : Bytes) : Decidable (IsMarker line) :=
  decidable_of_iff (isMarker line = true) (isMarker_iff line)

theorem hintsOf_file (contents : Bytes) : HintsOf chunks (.file contents) [[]]
    { hints := (chunks contents).map (FileChunk.toHint none) } where
  sound := by
    intro h hh
    obtain ⟨c, hc, rfl⟩ := List.mem_map.1 hh
    exact ⟨[], List.mem_singleton_self _, contents, ⟨rfl, rfl⟩, c, hc, none, rfl, rfl⟩
  complete := by
    refine List.forall_mem_singleton.2 ⟨contents, ⟨rfl, rfl⟩, none, rfl, fun c hc => ?_⟩
    exact List.mem_map_of_mem hc

/-- All hints together delete just the line markers. -/
theorem line_markers_deleted (contents : Bytes) : ∃ b out report,
    generateHints (.file contents) = .ok b ∧
      applyHints [b] (.file contents) = .ok (some (some (.file out), report)) ∧
      byteLines out = (byteLines contents).filter fun line => ¬ IsMarker line := by
  obtain ⟨dest, report, happly, hfiles⟩ := lineChunks_filter (hintsOf_file contents) fun _ => true
  obtain ⟨out, hout, hlines⟩ := hfiles [] (List.mem_singleton_self _) contents ⟨rfl, rfl⟩
  rw [List.filter_true] at happly
  cases dest with
  | dir t => exact absurd rfl (t.rooted _ hout).1
  | file d =>
    obtain rfl := hout.2
    refine ⟨_, d, report, rfl, happly, hlines.trans (List.filter_congr fun line _ => ?_)⟩
    rw [decide_eq_decide, not_iff_not, ← isMarker_iff]
    cases isMarker line <;> simp

end LineMarkersPass

namespace LinesPass

/-- The lines, with the newline that ends the file as a piece of its own. -/
def linePieces : List Bytes → List Bytes
  | [] => []
  | line :: lines =>
    if lines = [] ∧ line.getLast? = some 10 then [line.dropLast, [10]] else line :: linePieces lines

theorem flatten_linePieces (lines : List Bytes) : (linePieces lines).flatten = lines.flatten := by
  induction lines with
  | nil => rfl
  | cons line lines ih =>
    rw [linePieces]
    split
    · rename_i hlast
      obtain ⟨rfl, hlast⟩ := hlast
      rw [List.flatten_cons, List.flatten_singleton, List.flatten_singleton,
        List.dropLast_append_getLast? _ hlast]
    · rw [List.flatten_cons, List.flatten_cons, ih]

theorem textLineChunks_piece (h : c ∈ textLineChunks k lines) :
    ∃ i piece, (linePieces lines)[i]? = some piece ∧ c.left = k + pieceStart (linePieces lines) i ∧
      c.right = k + pieceStart (linePieces lines) i + piece.length := by
  induction lines generalizing k with
  | nil => cases h
  | cons line lines ih =>
    rw [textLineChunks, List.mem_append] at h
    rw [linePieces]
    by_cases hlast : lines = [] ∧ line.getLast? = some 10
    · simp only [if_pos hlast] at h ⊢
      obtain ⟨rfl, hlast⟩ := hlast
      rcases h with h | h
      · split at h
        · obtain rfl := List.mem_singleton.1 h
          refine ⟨0, line.dropLast, rfl, rfl, ?_⟩
          have hlen := List.length_pos_of_mem (List.mem_of_getLast? hlast)
          rw [List.length_dropLast, Nat.add_sub_assoc hlen]
          rfl
        · cases h
      · cases h
    · simp only [if_neg hlast] at h ⊢
      rcases h with h | h
      · split at h
        · obtain rfl := List.mem_singleton.1 h
          exact ⟨0, line, rfl, rfl, rfl⟩
        · cases h
      · obtain ⟨i, piece, hi, hleft, hright⟩ := ih h
        refine ⟨i + 1, piece, hi, ?_, ?_⟩
        · rw [pieceStart_cons, ← Nat.add_assoc, hleft]
        · rw [pieceStart_cons, ← Nat.add_assoc k, hright]

theorem textLineChunks_cuts :
    CutsPieces (fun data => linePieces (byteLines data)) generateHintsForTextLines where
  flatten data := (flatten_linePieces _).trans (flatten_byteLines data)
  whole := by
    intro data c hc
    obtain ⟨i, piece, hi, hleft, hright⟩ := textLineChunks_piece hc
    exact ⟨i, piece, hi, hleft.trans (Nat.zero_add _), by rw [hright, Nat.zero_add]⟩

theorem textLineChunks_all (hne : ∀ line ∈ lines, line ≠ []) :
    (∃ c ∈ textLineChunks k lines, c.left ≤ i ∧ i < c.right) ↔
      k ≤ i ∧ i < k + lines.flatten.length ∧
        ¬ (i + 1 = k + lines.flatten.length ∧ lines.flatten.getLast? = some 10) := by
  induction lines generalizing k with
  | nil =>
    simp only [textLineChunks, List.not_mem_nil, false_and, exists_false, List.flatten_nil,
      List.length_nil, false_iff]
    omega
  | cons line lines ih =>
    obtain ⟨hline, hlines⟩ := List.forall_mem_cons.1 hne
    have hpos := List.length_pos_of_ne_nil hline
    simp only [textLineChunks, List.mem_append, or_and_right, exists_or, ih hlines,
      List.flatten_cons, List.length_append]
    by_cases hnil : lines = []
    · subst hnil
      simp only [true_and, List.flatten_nil, List.length_nil, List.append_nil, Nat.add_zero,
        List.getLast?_nil, reduceCtorEq, and_false, not_false_eq_true, and_true]
      by_cases hlast : line.getLast? = some 10
      · simp only [hlast, if_true, and_true]
        by_cases hlt : k < k + line.length - 1
        · simp only [if_pos hlt, List.mem_singleton, exists_eq_left]
          omega
        · simp only [if_neg hlt, List.not_mem_nil, false_and, exists_false, false_or]
          omega
      · simp only [hlast, if_false, and_false, not_false_eq_true, and_true,
          if_pos (Nat.lt_add_of_pos_right hpos), List.mem_singleton, exists_eq_left]
        omega
    · have hrest : lines.flatten ≠ [] := by
        obtain ⟨l, ls, rfl⟩ := List.exists_cons_of_ne_nil hnil
        rw [List.flatten_cons]
        exact fun h => hlines l List.mem_cons_self (List.append_eq_nil_iff.1 h).1
      have hlen := List.length_pos_of_ne_nil hrest
      have hlast : (line ++ lines.flatten).getLast? = lines.flatten.getLast? :=
        List.getLast?_append_of_ne_nil _ hrest
      simp only [hnil, false_and, if_false, if_pos (Nat.lt_add_of_pos_right hpos),
        List.mem_singleton, exists_eq_left, hlast]
      by_cases hlast' : lines.flatten.getLast? = some 10
      · simp only [hlast', and_true]
        omega
      · simp only [hlast', and_false, not_false_eq_true, and_true]
        omega

/-- It does not matter whether the vocabulary is filled before or file by file. -/
theorem foldlM_addFileHints_eq (chunks : Bytes → List FileChunk) (testCase : TestCase)
    (paths : List RelPath) {k : Nat} (hk : testCase.isDir = true → k = b.vocabulary.length) :
    paths.foldlM (addFileHints chunks testCase) b = (do
      let hints ← hintsOfFiles chunks testCase (paths.zipIdx k)
      return { b with
        hints := b.hints ++ hints.flatten
        vocabulary := b.vocabulary ++
          if testCase.isDir then paths.map fun p => encode (strOfPath p) else [] }) := by
  induction paths generalizing b k with
  | nil =>
    cases hdir : testCase.isDir <;>
      simp [hintsOfFiles, List.foldlM_nil, pure, Except.pure, bind, Except.bind]
  | cons path paths ih =>
    rw [List.foldlM_cons, List.zipIdx_cons, hintsOfFiles, List.mapM_cons, addFileHints]
    change _ = (do
      let hints ← (do
        let head ← (do
          let contents ← testCase.readBytes path
          return (chunks contents).map (FileChunk.toHint (if testCase.isDir then some k else none)))
        let rest ← hintsOfFiles chunks testCase (paths.zipIdx (k + 1))
        return head :: rest)
      return { b with
        hints := b.hints ++ hints.flatten
        vocabulary := b.vocabulary ++
          if testCase.isDir then (path :: paths).map fun p => encode (strOfPath p) else [] })
    cases hread : testCase.readBytes path with
    | error e => rfl
    | ok contents =>
      simp only [bind, Except.bind, pure, Except.pure] at ih ⊢
      rw [ih (k := k + 1)]
      · cases hintsOfFiles chunks testCase (paths.zipIdx (k + 1)) with
        | error e => rfl
        | ok hints =>
          cases hdir : testCase.isDir with
          | false => simp
          | true => simp [hk hdir]
      · intro hdir
        simp [hdir, hk hdir]

theorem generateHints_eq (lib : GlobLibrary) (testCase : TestCase)
    (claimFiles claimedByOthersFiles : List Str) :
    generateHints lib testCase claimFiles claimedByOthersFiles = generateFileHints []
      generateHintsForTextLines lib testCase claimFiles claimedByOthersFiles := by
  rw [generateHints, generateFileHints, foldlM_addFileHints_eq (k := 0) _ _ _ fun _ => rfl]
  split
  · rename_i hnil
    rw [hnil]
    cases testCase <;> rfl
  · rfl

/-- Any of the hints can be applied together, and delete whole lines. Together they delete all but
the newlines that end files. -/
theorem lines_hints (hnamed : tc.Named) (lib : GlobLibrary)
    (claimFiles claimedByOthersFiles : List Str) :
    ∃ b, generateHints lib tc claimFiles claimedByOthersFiles = .ok b ∧
      SubsetsDrop (fun data => linePieces (byteLines data)) tc
        (filterFilesByPatterns lib tc claimFiles claimedByOthersFiles) b ∧
      ∀ path ∈ filterFilesByPatterns lib tc claimFiles claimedByOthersFiles, ∀ data,
        tc.HasFile path data → ∀ i, b.Takes path i ↔
          i < data.length ∧ ¬ (i + 1 = data.length ∧ data.getLast? = some 10) := by
  obtain ⟨b, hok, -, hb⟩ := generateFileHints_ok hnamed [] generateHintsForTextLines lib claimFiles
    claimedByOthersFiles
  refine ⟨b, (generateHints_eq ..).trans hok, textLineChunks_cuts.subsetsDrop hb, ?_⟩
  intro path hpath data hdata i
  have htakes := hb.takes_iff hpath hdata (fun _ => true) i
  have hchunks := textLineChunks_all (k := 0) (i := i)
    fun line hl => ((areLines_byteLines data).single line hl).1
  rw [List.filter_true] at htakes
  rw [flatten_byteLines, Nat.zero_add] at hchunks
  simp only [true_and] at htakes
  exact htakes.trans (hchunks.trans (and_iff_right (Nat.zero_le i)))

theorem lines_hints_tree :
    ∃ b, generateHints makefileLibrary (.dir BlankPass.linedTree) []
        ["**/Makefile".toList] = .ok b ∧
      SubsetsDrop (fun data => linePieces (byteLines data)) (.dir BlankPass.linedTree)
        (filterFilesByPatterns makefileLibrary (.dir BlankPass.linedTree) []
          ["**/Makefile".toList]) b ∧
      ∀ path ∈ filterFilesByPatterns makefileLibrary (.dir BlankPass.linedTree) []
          ["**/Makefile".toList], ∀ data,
        TestCase.HasFile (.dir BlankPass.linedTree) path data → ∀ i, b.Takes path i ↔
          i < data.length ∧ ¬ (i + 1 = data.length ∧ data.getLast? = some 10) :=
  lines_hints BlankPass.linedTree_named makefileLibrary [] ["**/Makefile".toList]

end LinesPass

end Cvise
