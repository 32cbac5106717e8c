import Cvise.HintStorage
import Mathlib.Data.List.Forall2

namespace Cvise
set_option autoImplicit true

/-- Whether msgspec can encode all objects that are written for the bundle. -/
def StorageLibrary.Encodes (lib : StorageLibrary) (b : HintBundle) : Prop :=
  lib.encode (.preamble (makePreamble b)) ≠ none ∧
    (∀ words, b.vocabulary.mapM decode = some words → lib.encode (.vocabulary words) ≠ none) ∧
      ∀ h ∈ b.hints, lib.encode (.hint h) ≠ none

def Disk.Works (disk : Disk) : Prop := disk.opens = true ∧ disk.fullAfter = none ∧ disk.closes = true

def linesText (ts : List Str) : Str := (ts.map (· ++ ['\n'])).flatten

/-- What was written so far, of which the last part is still in the buffer. -/
def Written (text : Str) (w : HintWriter) : Prop := w.chunks.flatten ++ w.buf = encode text

section Writer
variable {lib : StorageLibrary} {disk : Disk} {F : Prop}

theorem encodeInto_append (hF : lib.encode v = none → F) (text : Str) :
    Triple (Written text) (encodeInto lib v none)
      (fun _ w => ∃ t, lib.encode v = some t ∧ Written (text ++ t) w) (fun _ _ => F) := by
  intro w hw
  rw [encodeInto]
  cases henc : lib.encode v with
  | none => exact hF henc
  | some t =>
    refine ⟨t, rfl, ?_⟩
    rw [Option.getD_none, List.take_length, Written, ← List.append_assoc, encode_append, ← hw]

theorem encodeInto_start (hF : lib.encode v = none → F) (text : Str) :
    Triple (fun w => w.chunks.flatten = encode text) (encodeInto lib v (some 0))
      (fun _ w => ∃ t, lib.encode v = some t ∧ Written (text ++ t) w) (fun _ _ => F) := by
  intro w hw
  rw [encodeInto]
  cases henc : lib.encode v with
  | none => exact hF henc
  | some t =>
    refine ⟨t, rfl, ?_⟩
    rw [Option.getD_some, List.take_zero, List.nil_append, Written, encode_append, ← hw]

theorem appendNewline_triple (text : Str) :
    Triple (Written text) appendNewline (fun _ => Written (text ++ ['\n'])) (fun _ _ => F) := by
  apply Triple.ofModify
  intro w hw
  rw [Written, ← List.append_assoc, encode_append, hw]
  rfl

theorem writeBuf_triple (hF : disk.fullAfter ≠ none → F) (text : Str) :
    Triple (Written text) (writeBuf disk) (fun _ w => w.chunks.flatten = encode text)
      (fun _ _ => F) := by
  intro w hw
  rw [writeBuf]
  by_cases hfull : disk.fullAfter = some w.chunks.length
  · simp only [hfull, if_true]
    exact hF (hfull ▸ Option.some_ne_none _)
  · simp only [hfull, if_false]
    rw [List.flatten_append, List.flatten_singleton]
    exact hw

theorem decodeWords_triple (hwords : vocabulary.mapM decode = none → F) (P : HintWriter → Prop) :
    Triple P (decodeWords vocabulary) (fun words w => vocabulary.mapM decode = some words ∧ P w)
      (fun _ _ => F) := by
  intro w hw
  rw [decodeWords]
  cases hdecode : vocabulary.mapM decode with
  | none => exact hwords hdecode
  | some words => exact ⟨rfl, hw⟩

/-- A line is added, whether the buffer is flushed before or not. -/
theorem storeHint_triple (hdisk : disk.fullAfter ≠ none → F) (hF : lib.encode (.hint h) = none → F)
    (text : Str) :
    Triple (Written text) (storeHint lib disk h)
      (fun _ w => ∃ t, lib.encode (.hint h) = some t ∧ Written (text ++ (t ++ ['\n'])) w)
      (fun _ _ => F) := by
  have hline : Triple (fun w => ∃ t, lib.encode (.hint h) = some t ∧ Written (text ++ t) w)
      appendNewline
      (fun _ w => ∃ t, lib.encode (.hint h) = some t ∧ Written (text ++ (t ++ ['\n'])) w)
      (fun _ _ => F) := by
    apply Triple.ofExists
    intro t
    apply Triple.ofAnd
    intro ht
    apply (appendNewline_triple (text ++ t)).consequence (fun _ h => h) _ fun _ _ h => h
    intro _ w hw
    exact ⟨t, ht, List.append_assoc _ _ _ ▸ hw⟩
  apply Triple.ofGet
  intro w
  split
  · apply Triple.bind _ fun _ => hline
    exact (encodeInto_append hF text).consequence (fun _ h => h.1) (fun _ _ h => h) fun _ _ h => h
  · have hflush : Triple (fun w' => Written text w' ∧ w = w') (writeBuf disk)
        (fun _ w => w.chunks.flatten = encode text) (fun _ _ => F) :=
      (writeBuf_triple hdisk text).consequence (fun _ h => h.1) (fun _ _ h => h) fun _ _ h => h
    exact hflush.bind fun _ => (encodeInto_start hF text).bind fun _ => hline

theorem storeAll_triple {hs : List Hint} (hdisk : disk.fullAfter ≠ none → F)
    (hF : ∀ h ∈ hs, lib.encode (.hint h) = none → F) (text : Str) :
    Triple (Written text) (storeAll lib disk hs)
      (fun _ w => ∃ ts, List.Forall₂ (fun h t => lib.encode (.hint h) = some t) hs ts ∧
        Written (text ++ linesText ts) w)
      (fun _ _ => F) := by
  induction hs generalizing text with
  | nil =>
    apply Triple.ofPure
    intro w hw
    exact ⟨[], .nil, (List.append_nil text).symm ▸ hw⟩
  | cons h hs ih =>
    apply (storeHint_triple hdisk (hF h List.mem_cons_self) text).bind
    intro _
    apply Triple.ofExists
    intro t
    apply Triple.ofAnd
    intro ht
    apply (ih (fun g hg => hF g (List.mem_cons_of_mem _ hg)) (text ++ (t ++ ['\n']))).consequence
      (fun _ h => h) _ fun _ _ h => h
    rintro _ w ⟨ts, hts, hw⟩
    refine ⟨t :: ts, .cons ht hts, ?_⟩
    rw [linesText, List.map_cons, List.flatten_cons, ← List.append_assoc]
    exact hw

structure BundleLines (lib : StorageLibrary) (b : HintBundle) (words : List Str) (t₀ t₁ : Str)
    (ts : List Str) : Prop where
  decoded : b.vocabulary.mapM decode = some words
  preamble : lib.encode (.preamble (makePreamble b)) = some t₀
  vocabulary : lib.encode (.vocabulary words) = some t₁
  hints : List.Forall₂ (fun h t => lib.encode (.hint h) = some t) b.hints ts

theorem writeHints_triple {b : HintBundle} (hdisk : disk.fullAfter ≠ none → F)
    (hwords : b.vocabulary.mapM decode = none → F) (henc : ¬ lib.Encodes b → F) :
    Triple (fun w => w.chunks = []) (writeHints lib disk b)
      (fun _ w => ∃ words t₀ t₁ ts, BundleLines lib b words t₀ t₁ ts ∧
        w.chunks.flatten = encode (linesText (t₀ :: t₁ :: ts)))
      (fun _ _ => F) := by
  have hstart : Triple (fun w => w.chunks = [])
      (encodeInto lib (.preamble (makePreamble b)) (some 0))
      (fun _ w => ∃ t, lib.encode (.preamble (makePreamble b)) = some t ∧ Written ([] ++ t) w)
      (fun _ _ => F) := by
    apply (encodeInto_start (fun h => henc fun henc => henc.1 h) []).consequence _ (fun _ _ h => h)
      fun _ _ h => h
    intro w hw
    rw [hw]
    rfl
  apply hstart.bind
  intro _
  apply Triple.ofExists
  intro t₀
  apply Triple.ofAnd
  intro ht₀
  apply (appendNewline_triple ([] ++ t₀)).bind
  intro _
  apply (decodeWords_triple hwords _).bind
  intro words
  apply Triple.ofAnd
  intro hdecoded
  apply (encodeInto_append (fun h => henc fun henc => henc.2.1 words hdecoded h) _).bind
  intro _
  apply Triple.ofExists
  intro t₁
  apply Triple.ofAnd
  intro ht₁
  apply (appendNewline_triple _).bind
  intro _
  apply (storeAll_triple hdisk (fun h hh hnone => henc fun henc => henc.2.2 h hh hnone) _).bind
  intro _
  apply Triple.ofExists
  intro ts
  apply Triple.ofAnd
  intro hts
  apply (writeBuf_triple hdisk _).consequence (fun _ h => h) _ fun _ _ h => h
  intro _ w hw
  refine ⟨words, t₀, t₁, ts, ⟨hdecoded, ht₀, ht₁, hts⟩, hw.trans ?_⟩
  simp only [linesText, List.map_cons, List.flatten_cons, List.nil_append, List.append_assoc]

end Writer

theorem universalNewlines_eq (h : ∀ c ∈ t, c ≠ '\r') : universalNewlines t = t := by
  induction t with
  | nil => rfl
  | cons c t ih =>
    obtain ⟨hc, ht⟩ := List.forall_mem_cons.1 h
    rw [universalNewlines, ih ht]
    · rintro rest rfl
      exact absurd rfl hc
    · rintro rfl
      exact absurd rfl hc

theorem textLines_line (h : ∀ c ∈ t, c ≠ '\n') (rest : Str) :
    textLines (t ++ '\n' :: rest) = (t ++ ['\n']) :: textLines rest := by
  induction t with
  | nil => rfl
  | cons c t ih =>
    obtain ⟨hc, ht⟩ := List.forall_mem_cons.1 h
    rw [List.cons_append, textLines, if_neg hc, ih ht]
    rfl

theorem textLines_linesText (h : ∀ t ∈ ts, ∀ c ∈ t, c ≠ '\n') :
    textLines (linesText ts) = ts.map (· ++ ['\n']) := by
  induction ts with
  | nil => rfl
  | cons t ts ih =>
    obtain ⟨ht, hts⟩ := List.forall_mem_cons.1 h
    have hsplit : linesText (t :: ts) = t ++ '\n' :: linesText ts := by
      rw [linesText, List.map_cons, List.flatten_cons, List.append_assoc]
      rfl
    rw [hsplit, textLines_line ht, ih hts, List.map_cons]

theorem mapM_of_forall₂ {f : Str → Except PyErr Hint} (h : List.Forall₂ (fun h t => f t = .ok h) hs ts) :
    ts.mapM f = .ok hs := by
  induction h with
  | nil => rfl
  | cons hf _ ih =>
    rw [List.mapM_cons, hf, ih]
    rfl

theorem mapM_decode {vocabulary : List Bytes} {words : List Str} (h : vocabulary.mapM decode = some words) : words.map encode = vocabulary := by
  induction vocabulary generalizing words with
  | nil =>
    cases h
    rfl
  | cons w ws ih =>
    rw [List.mapM_cons] at h
    obtain ⟨s, hs, h⟩ := Option.bind_eq_some_iff.1 h
    obtain ⟨ss, hss, h⟩ := Option.bind_eq_some_iff.1 h
    cases h
    rw [List.map_cons, encode_decode hs, ih hss]

/-- `hints[begin:end]`. -/
def sliceHints (hints : List Hint) (beginIndex endIndex : Option Nat) : List Hint :=
  let start := beginIndex.getD 0
  match endIndex with
  | none => hints.drop start
  | some stop => (hints.drop start).take (stop - start)

/-- A half-range of the indices below `n`, which may be open at its ends. -/
def ValidRange (n : Nat) (beginIndex endIndex : Option Nat) : Prop :=
  beginIndex.getD 0 ≤ n ∧ ∀ stop, endIndex = some stop → beginIndex.getD 0 < stop ∧ stop ≤ n

section Reader
variable {lib : StorageLibrary}

theorem linesRange_hints {R : Hint → Str → Prop} {hs : List Hint} {ls : List Str}
    (h : List.Forall₂ R hs ls) (hrange : ValidRange hs.length b e) :
    ∃ ls', linesRange ls b e = .ok ls' ∧ List.Forall₂ R (sliceHints hs b e) ls' := by
  obtain ⟨hstart, hstop⟩ := hrange
  rw [h.length_eq] at hstart hstop
  simp only [linesRange, sliceHints, Nat.not_lt.2 hstart, if_false]
  cases e with
  | none => exact ⟨_, rfl, List.forall₂_drop _ h⟩
  | some stop =>
    have hle : stop - b.getD 0 ≤ (ls.drop (b.getD 0)).length := by
      rw [List.length_drop]
      exact Nat.sub_le_sub_right (hstop stop rfl).2 _
    simp only [Nat.not_lt.2 hle, if_false]
    exact ⟨_, rfl, List.forall₂_take _ (List.forall₂_drop _ h)⟩

theorem encoded_of_mem (h : List.Forall₂ (fun h t => lib.encode (.hint h) = some t) hs ts) :
    ∀ t ∈ ts, ∃ g, lib.encode (.hint g) = some t := by
  induction h with
  | nil => exact fun t ht => absurd ht List.not_mem_nil
  | cons hg _ ih =>
    intro t ht
    rcases List.mem_cons.1 ht with rfl | ht
    · exact ⟨_, hg⟩
    · exact ih t ht

theorem BundleLines.one_line (h : BundleLines lib b words t₀ t₁ ts) (hlib : lib.Documented) :
    ∀ t ∈ t₀ :: t₁ :: ts, ∀ c ∈ t, c ≠ '\n' ∧ c ≠ '\r' := by
  intro t ht
  rcases List.mem_cons.1 ht with rfl | ht
  · exact hlib.one_line _ _ h.preamble
  · rcases List.mem_cons.1 ht with rfl | ht
    · exact hlib.one_line _ _ h.vocabulary
    · obtain ⟨g, hg⟩ := encoded_of_mem h.hints t ht
      exact hlib.one_line _ _ hg

theorem openText_stored (hlib : lib.Documented) (hzst : suffix path = ".zst".toList)
    (hfile : s.files path = some (lib.compress chunks)) (hchunks : chunks.flatten = encode text)
    (htext : ∀ c ∈ text, c ≠ '\r') : openText lib s path = .ok text := by
  simp only [openText, hfile, hzst, if_true, hlib.lossless, hchunks, hlib.utf8,
    universalNewlines_eq htext]

theorem tryParseJsonLine_ok {decoder : Str → Except Str α} (h : decoder t = .ok v) :
    tryParseJsonLine t decoder = .ok v := by
  rw [tryParseJsonLine, h]

theorem loadHints_stored (hlib : lib.Documented) (hzst : suffix path = ".zst".toList)
    (hfile : s.files path = some (lib.compress chunks)) (hlines : BundleLines lib bundle words t₀ t₁ ts)
    (hchunks : chunks.flatten = encode (linesText (t₀ :: t₁ :: ts)))
    (hrange : ValidRange bundle.hints.length b e) :
    loadHints lib s path b e = .ok { bundle with hints := sliceHints bundle.hints b e } := by
  have hone := hlines.one_line hlib
  have htext : ∀ c ∈ linesText (t₀ :: t₁ :: ts), c ≠ '\r' := by
    intro c hc
    obtain ⟨l, hl, hc⟩ := List.mem_flatten.1 hc
    obtain ⟨t, ht, rfl⟩ := List.mem_map.1 hl
    rcases List.mem_append.1 hc with hc | hc
    · exact (hone t ht c hc).2
    · rw [List.mem_singleton.1 hc]
      decide
  have hopen := openText_stored hlib hzst hfile hchunks htext
  have hsplit := textLines_linesText fun t ht c hc => (hone t ht c hc).1
  have hassert : ¬ (b ≠ none ∧ e ≠ none ∧ ¬ b.getD 0 < e.getD 0) := by
    rintro ⟨_, he, hlt⟩
    obtain ⟨stop, rfl⟩ := Option.ne_none_iff_exists'.1 he
    exact hlt (hrange.2 stop rfl).1
  have hdecoded : List.Forall₂ (fun h l => tryParseJsonLine l lib.decodeHint = .ok h) bundle.hints
      (ts.map (· ++ ['\n'])) := by
    rw [List.forall₂_map_right_iff]
    exact hlines.hints.imp fun h t ht => tryParseJsonLine_ok (hlib.hint h t ht)
  obtain ⟨ls, hls, hhints⟩ := linesRange_hints hdecoded hrange
  have hpreamble := tryParseJsonLine_ok (hlib.preamble _ _ hlines.preamble)
  have hvocabulary := tryParseJsonLine_ok (hlib.vocabulary _ _ hlines.vocabulary)
  rw [loadHints, if_neg hassert]
  simp only [hopen, hsplit, List.map_cons, nextLine, hpreamble, hvocabulary, hls,
    mapM_of_forall₂ hhints, mapM_decode hlines.decoded, makePreamble, bind, Except.bind, pure,
    Except.pure, ne_eq, not_true_eq_false, if_false]

/-- What a call that returned has stored, whatever was in the buffer before. -/
theorem storeHints_ok {c : StoreCall} (h : (storeHints lib s c).1 = .ok ()) :
    ∃ chunks words t₀ t₁ ts, (storeHints lib s c).2.files c.path = some (lib.compress chunks) ∧
      BundleLines lib c.bundle words t₀ t₁ ts ∧
      chunks.flatten = encode (linesText (t₀ :: t₁ :: ts)) := by
  have hw := @writeHints_triple lib c.disk True c.bundle
    (fun _ => trivial) (fun _ => trivial) (fun _ => trivial) { buf := s.encodingBuf.getD [] } rfl
  rw [storeHints] at h ⊢
  by_cases hopens : c.disk.opens = true
  · simp only [hopens, if_true] at h ⊢
    cases hr : writeHints lib c.disk c.bundle { buf := s.encodingBuf.getD [] } with
    | error e w => rw [hr] at h; cases h
    | ok _ w =>
      rw [hr] at hw
      obtain ⟨words, t₀, t₁, ts, hlines, hchunks⟩ := hw
      simp only [hr] at h ⊢
      by_cases hcloses : c.disk.closes = true
      · simp only [hcloses, if_true]
        exact ⟨w.chunks, words, t₀, t₁, ts, Function.update_self _ _ _, hlines, hchunks⟩
      · simp only [hcloses] at h
        cases h
  · simp only [hopens] at h
    cases h

theorem storeHints_returns {c : StoreCall} (hdisk : c.disk.Works) (henc : lib.Encodes c.bundle)
    (hutf8 : c.bundle.vocabulary.mapM decode ≠ none) : (storeHints lib s c).1 = .ok () := by
  obtain ⟨hopens, hspace, hcloses⟩ := hdisk
  have hw := @writeHints_triple lib c.disk False c.bundle
    (fun h => h hspace) hutf8 (fun h => h henc) { buf := s.encodingBuf.getD [] } rfl
  rw [storeHints]
  simp only [hopens, if_true]
  cases hr : writeHints lib c.disk c.bundle { buf := s.encodingBuf.getD [] } with
  | error e w => rw [hr] at hw; exact hw.elim
  | ok _ w => simp only [hcloses, if_true]

theorem storeHints_other {c : StoreCall} (h : p ≠ c.path) :
    (storeHints lib s c).2.files p = s.files p := by
  rw [storeHints]
  by_cases hopens : c.disk.opens = true
  · simp only [hopens, if_true]
    cases writeHints lib c.disk c.bundle { buf := s.encodingBuf.getD [] } with
    | error e w => exact Function.update_of_ne h _ _
    | ok _ w =>
      cases c.disk.closes with
      | true => exact Function.update_of_ne h _ _
      | false => exact Function.update_of_ne h _ _
  · simp only [hopens]
    rfl

theorem storeSequence_other {calls : List StoreCall} (h : ∀ c ∈ calls, c.path ≠ p) :
    (storeSequence lib s calls).files p = s.files p := by
  induction calls generalizing s with
  | nil => rfl
  | cons c calls ih =>
    obtain ⟨hc, hcalls⟩ := List.forall_mem_cons.1 h
    rw [storeSequence, List.foldl_cons]
    exact (ih hcalls).trans (storeHints_other (Ne.symm hc))

theorem mapM_decode_ne_none {vocabulary : List Bytes} (h : ∀ w ∈ vocabulary, (decode w).isSome) :
    vocabulary.mapM decode ≠ none := by
  induction vocabulary with
  | nil => exact Option.some_ne_none _
  | cons w ws ih =>
    obtain ⟨hw, hws⟩ := List.forall_mem_cons.1 h
    obtain ⟨s, hs⟩ := Option.isSome_iff_exists.1 hw
    obtain ⟨ss, hss⟩ := Option.ne_none_iff_exists'.1 (ih hws)
    rw [List.mapM_cons, hs, hss]
    exact Option.some_ne_none _

end Reader

/-- What is loaded is what was stored, in every history of calls. -/
theorem loadHints_storeHints (lib : StorageLibrary) (hlib : lib.Documented) (s₀ : HintStorage)
    (before after : List StoreCall) (c : StoreCall) (hzst : suffix c.path = ".zst".toList)
    (hutf8 : ∀ w ∈ c.bundle.vocabulary, (decode w).isSome) (hafter : ∀ d ∈ after, d.path ≠ c.path) :
    (c.disk.Works → lib.Encodes c.bundle →
      (storeHints lib (storeSequence lib s₀ before) c).1 = .ok ()) ∧
    ((storeHints lib (storeSequence lib s₀ before) c).1 = .ok () →
      let s := storeSequence lib s₀ (before ++ c :: after)
      loadHints lib s c.path none none = .ok c.bundle ∧
        ∀ b e, b < e → e ≤ c.bundle.hints.length → loadHints lib s c.path (some b) (some e) =
          .ok { c.bundle with hints := (c.bundle.hints.drop b).take (e - b) }) := by
  refine ⟨fun hdisk henc => storeHints_returns hdisk henc (mapM_decode_ne_none hutf8), ?_⟩
  intro hok
  obtain ⟨chunks, words, t₀, t₁, ts, hfile, hlines, hchunks⟩ := storeHints_ok hok
  have hfile' : (storeSequence lib s₀ (before ++ c :: after)).files c.path =
      some (lib.compress chunks) := by
    rw [storeSequence, List.foldl_append, List.foldl_cons]
    exact (storeSequence_other hafter).trans hfile
  constructor
  · exact loadHints_stored hlib hzst hfile' hlines hchunks
      ⟨Nat.zero_le _, fun _ h => nomatch h⟩
  · intro b e hlt hle
    apply loadHints_stored hlib hzst hfile' hlines hchunks
    refine ⟨Nat.le_trans (Nat.le_of_lt hlt) hle, ?_⟩
    rintro _ ⟨⟩
    exact ⟨hlt, hle⟩

def firstByte : Hint := { patches := [{ left := some 0, right := some 1 }] }

def firstByteBundle : HintBundle := { hints := [firstByte] }

/-- The libraries, as far as that bundle needs them; zstandard stores a short file in one raw block. -/
def rawLibrary : StorageLibrary where
  encode v :=
    if v = .preamble (makePreamble firstByteBundle) then
      some "\x7b\"format\":\"cvise_hints_v0\"\x7d".toList
    else if v = .vocabulary [] then some "[]".toList
    else if v = .hint firstByte then some "\x7b\"p\":[\x7b\"l\":0,\"r\":1\x7d]\x7d".toList
    else none
  leftover _ buf := buf ++ [0x7b]
  decodePreamble t :=
    if t = "\x7b\"format\":\"cvise_hints_v0\"\x7d\n".toList then .ok (makePreamble firstByteBundle)
    else .error []
  decodeVocabulary t := if t = "[]\n".toList then .ok [] else .error []
  decodeHint t :=
    if t = "\x7b\"p\":[\x7b\"l\":0,\"r\":1\x7d]\x7d\n".toList then .ok firstByte else .error []
  compress chunks :=
    let n := chunks.flatten.length
    [0x28, 0xb5, 0x2f, 0xfd, 0x20, n.toUInt8, (8 * n + 1).toUInt8, (n / 32).toUInt8, 0] ++
      chunks.flatten
  decompress b := some (b.drop 9)
  decodeText := decode
  repr s := '\'' :: s ++ ['\'']

theorem oneLine_of_all {t : Str} (h : (t.all fun c => c != '\n' && c != '\r') = true) :
    ∀ c ∈ t, c ≠ '\n' ∧ c ≠ '\r' := by
  intro c hc
  have hboth := List.all_eq_true.1 h c hc
  simpa only [Bool.and_eq_true, bne_iff_ne] using hboth

theorem rawLibrary_documented : rawLibrary.Documented where
  one_line := by
    intro v t ht
    simp only [rawLibrary] at ht
    split at ht
    · cases ht
      exact oneLine_of_all rfl
    · split at ht
      · cases ht
        exact oneLine_of_all rfl
      · split at ht
        · cases ht
          exact oneLine_of_all rfl
        · cases ht
  preamble := by
    intro p t ht
    simp only [rawLibrary] at ht
    split at ht
    · rename_i hp
      cases hp
      cases ht
      rfl
    · simp at ht
  vocabulary := by
    intro v t ht
    simp only [rawLibrary] at ht
    split at ht
    · rename_i hp; cases hp
    · split at ht
      · rename_i hp
        cases hp
        cases ht
        rfl
      · simp at ht
  hint := by
    intro h t ht
    simp only [rawLibrary] at ht
    split at ht
    · rename_i hp; cases hp
    · split at ht
      · rename_i hp; cases hp
      · split at ht
        · rename_i hp
          cases hp
          cases ht
          rfl
        · cases ht
  lossless _ := rfl
  utf8 := decode_encode

def zstPath : RelPath := ["hints0.jsonl.zst".toList]

/-- The hint is stored after a call that raised, for its vocabulary is not UTF-8. -/
theorem loadHints_storeHints_afterRaise :
    (storeHints rawLibrary {} ⟨{ firstByteBundle with vocabulary := [[0xff]] }, zstPath, {}⟩).1 =
      .error .unicodeDecodeError ∧
    loadHints rawLibrary (storeSequence rawLibrary {}
      ([⟨{ firstByteBundle with vocabulary := [[0xff]] }, zstPath, {}⟩] ++
        ⟨firstByteBundle, zstPath, {}⟩ :: [])) zstPath (some 0) (some 1) = .ok firstByteBundle := by
  obtain ⟨hreturns, hload⟩ := loadHints_storeHints rawLibrary rawLibrary_documented {}
    [⟨{ firstByteBundle with vocabulary := [[0xff]] }, zstPath, {}⟩] [] ⟨firstByteBundle, zstPath, {}⟩
    (by decide) (fun w hw => absurd hw List.not_mem_nil) (fun d hd => absurd hd List.not_mem_nil)
  have henc : rawLibrary.Encodes firstByteBundle := by
    refine ⟨by decide, ?_, by decide⟩
    rintro words ⟨⟩
    decide
  exact ⟨by decide, (hload (hreturns ⟨rfl, rfl, rfl⟩ henc)).2 0 1 (by decide) (by decide)⟩

end Cvise
