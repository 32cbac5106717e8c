import Cvise.Hint
import Cvise.HintsBuilder
import Mathlib.Tactic.IntervalCases

namespace Cvise
set_option autoImplicit true

/-- Digits, with single underscores between them; `acc` is the value of those before. -/
def digitsValue (acc : Nat) (afterDigit : Bool) : Bytes → Option Nat
  | [] => if afterDigit then some acc else none
  | d :: ds =>
    if 48 ≤ d ∧ d ≤ 57 then digitsValue (10 * acc + (d - 48).toNat) true ds
    else if d = 95 ∧ afterDigit = true then digitsValue acc false ds
    else none

def stripBytes (b : Bytes) : Bytes :=
  ((b.dropWhile isSpaceByte).reverse.dropWhile isSpaceByte).reverse

def signedValue : Bytes → Option Int
  | 43 :: ds => (digitsValue 0 false ds).map Int.ofNat
  | 45 :: ds => (digitsValue 0 false ds).map fun n => -Int.ofNat n
  | ds => (digitsValue 0 false ds).map Int.ofNat

/-- `int(b)`, which raises a `ValueError` where `b` is no decimal literal. -/
def intOfBytes (b : Bytes) : Except PyErr Int :=
  match signedValue (stripBytes b) with
  | some n => .ok n
  | none => .error .other

/-- What is before and what is behind the place that `index(x, pos)` finds, of the bytes from `pos`
on. It raises a `ValueError` where there is none. -/
def cutAt (x : UInt8) : Bytes → Except PyErr (Bytes × Bytes)
  | [] => .error .other
  | b :: rest =>
    if b = x then .ok ([], rest)
    else do
      let (before, behind) ← cutAt x rest
      return (b :: before, behind)

theorem cutAt_length (h : cutAt x data = .ok (before, behind)) : behind.length < data.length := by
  induction data generalizing before with
  | nil => cases h
  | cons b data ih =>
    rw [cutAt] at h
    split at h
    · cases h
      exact Nat.lt_succ_self _
    · cases hrest : cutAt x data with
      | error e =>
        rw [hrest] at h
        cases h
      | ok cut =>
        rw [hrest] at h
        cases h
        exact (ih hrest).trans (Nat.lt_succ_self _)

def readVocab : Nat → Bytes → Except PyErr (List Bytes × Bytes)
  | 0, rest => .ok ([], rest)
  | n + 1, rest => do
    let (word, rest) ← cutAt 0 rest
    let (vocab, rest) ← readVocab n rest
    return (word :: vocab, rest)

/-- The loop that reads the hints; the decoder is `msgspec`'s. -/
def readHints (decodeHint : Bytes → Except PyErr Hint) (rest : Bytes) : Except PyErr (List Hint) :=
  if rest = [] then .ok []
  else
    match _ : cutAt 10 rest with
    | .error e => .error e
    | .ok (line, behind) => do
      let hint ← decodeHint line
      let hints ← readHints decodeHint behind
      return hint :: hints
termination_by rest.length
decreasing_by exact cutAt_length (by assumption)

def parseClangDeltaHints (decodeHint : Bytes → Except PyErr Hint) (stdout : Bytes) :
    Except PyErr HintBundle :=
  -- The tool might have failed with no output.
  if stdout.all isSpaceByte then .ok { hints := [] }
  else do
    let (line, rest) ← cutAt 10 stdout
    let vocabSize ← intOfBytes line
    let (vocab, rest) ← readVocab vocabSize.toNat rest
    let hints ← readHints decodeHint rest
    return { hints := hints, vocabulary := vocab }

/-- The hint that an object stands for. -/
def hintOfPatches (patches : List BuiltPatch) : Hint where
  patches := patches.map fun p => { left := some p.l, right := some p.r, value := p.v }

theorem cutAt_eq (h : x ∉ before) (behind : Bytes) :
    cutAt x (before ++ x :: behind) = .ok (before, behind) := by
  induction before with
  | nil => rw [List.nil_append, cutAt, if_pos rfl]
  | cons b before ih =>
    obtain ⟨hb, hrest⟩ := not_or.1 (mt List.mem_cons.2 h)
    rw [List.cons_append, cutAt, if_neg (Ne.symm hb), ih hrest]
    rfl

theorem readVocab_eq (h : ∀ w ∈ vocab, 0 ∉ w) (rest : Bytes) :
    readVocab vocab.length (vocab.flatMap (· ++ [0]) ++ rest) = .ok (vocab, rest) := by
  induction vocab with
  | nil => rfl
  | cons w vocab ih =>
    obtain ⟨hw, hvocab⟩ := List.forall_mem_cons.1 h
    have hcut := cutAt_eq hw (vocab.flatMap (· ++ [0]) ++ rest)
    have htext : (w :: vocab).flatMap (· ++ [0]) ++ rest =
        w ++ 0 :: (vocab.flatMap (· ++ [0]) ++ rest) := by
      simp
    rw [htext, List.length_cons, readVocab, hcut]
    show (do let (vocab, rest) ← readVocab vocab.length _; return (w :: vocab, rest)) = _
    rw [ih hvocab]
    rfl

theorem readHints_eq {decodeHint : Bytes → Except PyErr Hint} (hints : List (List BuiltPatch))
    (hline : ∀ h ∈ hints, 10 ∉ HintsBuilder.hintJson h)
    (hdecode : ∀ h ∈ hints, decodeHint (HintsBuilder.hintJson h) = .ok (hintOfPatches h)) :
    readHints decodeHint (hints.flatMap fun h => HintsBuilder.hintJson h ++ [10]) =
      .ok (hints.map hintOfPatches) := by
  induction hints with
  | nil => rw [List.flatMap_nil, readHints, if_pos rfl]; rfl
  | cons h hints ih =>
    obtain ⟨hl, hls⟩ := List.forall_mem_cons.1 hline
    obtain ⟨hd, hds⟩ := List.forall_mem_cons.1 hdecode
    have hcut := cutAt_eq hl (hints.flatMap fun h => HintsBuilder.hintJson h ++ [10])
    have htext : ((h :: hints).flatMap fun h => HintsBuilder.hintJson h ++ [10]) =
        HintsBuilder.hintJson h ++ 10 :: (hints.flatMap fun h => HintsBuilder.hintJson h ++ [10]) := by
      simp
    rw [htext, readHints, if_neg (by simp)]
    split
    · rename_i e he
      cases he.symm.trans hcut
    · rename_i line behind he
      obtain ⟨rfl, rfl⟩ := Prod.mk.inj (Except.ok.inj (he.symm.trans hcut))
      rw [hd]
      show (do let hints ← readHints decodeHint _; return hintOfPatches h :: hints) = _
      rw [ih hls hds]
      rfl

theorem digit_bounds (h : d < 10) : 48 ≤ UInt8.ofNat (48 + d) ∧ UInt8.ofNat (48 + d) ≤ 57 ∧
    (UInt8.ofNat (48 + d) - 48).toNat = d := by
  interval_cases d <;> decide

theorem digitsValue_eq (ds : List Nat) (h : ∀ d ∈ ds, d < 10) (acc : Nat) :
    digitsValue acc true (ds.map fun d => UInt8.ofNat (48 + d)) =
      some (ds.foldl (fun n d => 10 * n + d) acc) := by
  induction ds generalizing acc with
  | nil => rfl
  | cons d ds ih =>
    obtain ⟨hd, hds⟩ := List.forall_mem_cons.1 h
    obtain ⟨hle, hge, hvalue⟩ := digit_bounds hd
    rw [List.map_cons, digitsValue, if_pos ⟨hle, hge⟩, hvalue, ih hds]
    rfl

theorem decimal_digits (n : Nat) : ∃ ds : List Nat, ds ≠ [] ∧ (∀ d ∈ ds, d < 10) ∧
    HintsBuilder.decimal n = ds.map (fun d => UInt8.ofNat (48 + d)) ∧
      ds.foldl (fun n d => 10 * n + d) 0 = n := by
  rw [HintsBuilder.decimal]
  split
  · rename_i hn
    exact ⟨[0], List.cons_ne_nil _ _, by simp, rfl, hn.symm⟩
  · rename_i hn
    refine ⟨(Nat.digits 10 n).reverse, ?_, fun d hd => ?_, rfl, ?_⟩
    · rw [Ne, List.reverse_eq_nil_iff, Nat.digits_eq_nil_iff_eq_zero]
      exact hn
    · exact Nat.digits_lt_base (by decide) (List.mem_reverse.1 hd)
    · rw [List.foldl_reverse]
      have hvalue := Nat.ofDigits_digits 10 n
      rw [Nat.ofDigits_eq_foldr] at hvalue
      simpa [Nat.add_comm] using hvalue

theorem decimal_bytes (n : Nat) : ∀ b ∈ HintsBuilder.decimal n, 48 ≤ b ∧ b ≤ 57 := by
  obtain ⟨ds, -, hlt, he, -⟩ := decimal_digits n
  intro b hb
  rw [he] at hb
  obtain ⟨d, hd, rfl⟩ := List.mem_map.1 hb
  obtain ⟨hle, hge, -⟩ := digit_bounds (hlt d hd)
  exact ⟨hle, hge⟩

theorem digit_plain (h : 48 ≤ b ∧ b ≤ 57) : isSpaceByte b = false ∧ b ≠ 10 ∧ b ≠ 43 ∧ b ≠ 45 := by
  obtain ⟨hle, hge⟩ := h
  rw [UInt8.le_iff_toNat_le] at hle hge
  have hne (c : UInt8) (hc : c.toNat < 48) : b ≠ c := by
    rintro rfl
    exact absurd hle (Nat.not_le.2 hc)
  refine ⟨?_, hne 10 (by decide), hne 43 (by decide), hne 45 (by decide)⟩
  rw [isSpaceByte, Bool.or_eq_false_iff, Bool.and_eq_false_iff]
  refine ⟨.inr (decide_eq_false fun hle' => ?_), decide_eq_false (hne 32 (by decide))⟩
  rw [UInt8.le_iff_toNat_le] at hle'
  exact absurd (hle.trans hle') (by decide)

theorem stripBytes_eq (h : ∀ b ∈ text, isSpaceByte b = false) : stripBytes text = text := by
  have hdrop {text : Bytes} (h : ∀ b ∈ text, isSpaceByte b = false) :
      text.dropWhile isSpaceByte = text := by
    cases text with
    | nil => rfl
    | cons b text =>
      rw [List.dropWhile_cons_of_neg (by simp [h b List.mem_cons_self])]
  rw [stripBytes, hdrop h, hdrop fun b hb => h b (List.mem_reverse.1 hb), List.reverse_reverse]

theorem intOfBytes_decimal (n : Nat) : intOfBytes (HintsBuilder.decimal n) = .ok (n : Int) := by
  have hbytes := decimal_bytes n
  have hstrip := stripBytes_eq fun b hb => (digit_plain (hbytes b hb)).1
  obtain ⟨ds, hne, hlt, he, hvalue⟩ := decimal_digits n
  cases ds with
  | nil => exact absurd rfl hne
  | cons d ds =>
    obtain ⟨hd, hds⟩ := List.forall_mem_cons.1 hlt
    obtain ⟨hle, hge, hfirst⟩ := digit_bounds hd
    obtain ⟨-, -, hplus, hminus⟩ := digit_plain ⟨hle, hge⟩
    have hread : digitsValue 0 false (HintsBuilder.decimal n) = some n := by
      rw [he, List.map_cons, digitsValue, if_pos ⟨hle, hge⟩, hfirst, digitsValue_eq ds hds]
      exact congrArg some hvalue
    have hsigned : signedValue (HintsBuilder.decimal n) = some (n : Int) := by
      rw [signedValue.eq_def]
      split
      · rename_i ds' hplus'
        rw [he] at hplus'
        exact absurd (List.cons.inj hplus').1 hplus
      · rename_i ds' hminus'
        rw [he] at hminus'
        exact absurd (List.cons.inj hminus').1 hminus
      · rw [hread]
        rfl
    rw [intOfBytes, hstrip, hsigned]

theorem newline_not_mem_patchJson (p : BuiltPatch) : 10 ∉ HintsBuilder.patchJson p := by
  have hdecimal (n : Nat) : 10 ∉ HintsBuilder.decimal n :=
    fun h => (digit_plain (decimal_bytes n 10 h)).2.1 rfl
  rw [HintsBuilder.patchJson]
  cases p.v with
  | none => simp only [List.mem_append, hdecimal, or_false]; decide
  | some v => simp only [List.mem_append, hdecimal, or_false]; decide

theorem newline_not_mem_hintJson (h : List BuiltPatch) : 10 ∉ HintsBuilder.hintJson h := by
  have hpatches : 10 ∉ List.intercalate (HintsBuilder.ascii ",") (h.map HintsBuilder.patchJson) := by
    induction h with
    | nil => exact List.not_mem_nil
    | cons p h ih =>
      cases h with
      | nil => simpa [List.intercalate] using newline_not_mem_patchJson p
      | cons q h =>
        rw [List.map_cons, List.map_cons, List.intercalate_cons_cons, ← List.map_cons]
        simp only [List.mem_append, newline_not_mem_patchJson, ih, or_false]
        decide
  rw [HintsBuilder.hintJson]
  simp only [List.mem_append, hpatches, or_false]
  decide

def PatchCall.text : PatchCall → Bytes
  | .range _ _ replacement => replacement
  | .insertion _ text => text

namespace HintsBuilder

/-- Every word of the vocabulary is the text of a call. -/
def Worded (b : HintsBuilder) (P : Bytes → Prop) : Prop := ∀ w ∈ b.vocab, P w

theorem Worded.lookup {b : HintsBuilder} (h : b.Worded P) (hs : P s) :
    (b.lookupOrCreateVocabId s).2.Worded P := by
  rw [lookupOrCreateVocabId]
  split
  · exact h
  · intro w hw
    rcases List.mem_append.1 hw with hw | hw
    · exact h w hw
    · exact List.mem_singleton.1 hw ▸ hs

theorem Worded.addPatch {b : HintsBuilder} (h : b.Worded P) (hs : P call.text) :
    (b.addPatch call).Worded P := by
  cases call with
  | range l len replacement =>
    rw [HintsBuilder.addPatch]
    split
    · exact h
    · split
      · exact h
      · exact h.lookup hs
  | insertion l text =>
    rw [HintsBuilder.addPatch]
    split
    · exact h
    · exact h.lookup hs

theorem Worded.addScope {b : HintsBuilder} (h : b.Worded P) (hs : ∀ c ∈ calls, P c.text) :
    (b.addScope calls).Worded P := by
  have hcalls : (calls.foldl HintsBuilder.addPatch b).Worded P := by
    induction calls generalizing b with
    | nil => exact h
    | cons c calls ih =>
      obtain ⟨hc, hcs⟩ := List.forall_mem_cons.1 hs
      exact ih (h.addPatch hc) hcs
  rw [HintsBuilder.addScope, finishCurrentHint]
  split
  · exact hcalls
  · exact hcalls

theorem build_worded (reversed : Bool) (hs : ∀ calls ∈ scopes, ∀ c ∈ calls, P c.text) :
    (build scopes reversed).Worded P := by
  have hscopes {b : HintsBuilder} (h : b.Worded P) :
      (scopes.foldl HintsBuilder.addScope b).Worded P := by
    induction scopes generalizing b with
    | nil => exact h
    | cons calls scopes ih =>
      obtain ⟨hc, hcs⟩ := List.forall_mem_cons.1 hs
      exact ih hcs (h.addScope hc)
  have hall := hscopes (b := {}) fun w hw => absurd hw List.not_mem_nil
  cases reversed with
  | false => exact hall
  | true => exact hall

/-- What was printed is read back: the words, and the hints as the builder has them. -/
theorem parse_output {decodeHint : Bytes → Except PyErr Hint} {b : HintsBuilder}
    (hnul : b.Worded fun w => 0 ∉ w)
    (hdecode : ∀ h ∈ b.hints, decodeHint (hintJson h) = .ok (hintOfPatches h)) :
    parseClangDeltaHints decodeHint b.output =
      .ok { hints := b.hints.map hintOfPatches, vocabulary := b.vocab } := by
  have hbytes := decimal_bytes b.vocab.length
  have hne : b.output.all isSpaceByte = false := by
    obtain ⟨ds, hds, hlt, he, -⟩ := decimal_digits b.vocab.length
    obtain ⟨d, ds, rfl⟩ := List.exists_cons_of_ne_nil hds
    have hmem : UInt8.ofNat (48 + d) ∈ decimal b.vocab.length := by
      rw [he]
      exact List.mem_cons_self
    rw [List.all_eq_false]
    refine ⟨_, ?_, by rw [(digit_plain (hbytes _ hmem)).1]; exact Bool.false_ne_true⟩
    rw [output, List.append_assoc, List.append_assoc]
    exact List.mem_append_left _ hmem
  have hcut := cutAt_eq (x := 10) (fun h => (digit_plain (hbytes 10 h)).2.1 rfl)
    (b.vocab.flatMap (· ++ [0]) ++ b.hints.flatMap fun h => hintJson h ++ [10])
  have htext : b.output = decimal b.vocab.length ++ 10 ::
      (b.vocab.flatMap (· ++ [0]) ++ b.hints.flatMap fun h => hintJson h ++ [10]) := by
    simp [output]
  rw [parseClangDeltaHints, hne, if_neg Bool.false_ne_true, htext, hcut]
  show (do
    let vocabSize ← intOfBytes (decimal b.vocab.length)
    let (vocab, rest) ← readVocab vocabSize.toNat _
    let hints ← readHints decodeHint rest
    return { hints := hints, vocabulary := vocab } : Except PyErr HintBundle) = _
  rw [intOfBytes_decimal]
  show (do
    let (vocab, rest) ← readVocab b.vocab.length _
    let hints ← readHints decodeHint rest
    return { hints := hints, vocabulary := vocab } : Except PyErr HintBundle) = _
  rw [readVocab_eq hnul]
  show (do
    let hints ← readHints decodeHint _
    return { hints := hints, vocabulary := b.vocab } : Except PyErr HintBundle) = _
  rw [readHints_eq b.hints (fun h _ => newline_not_mem_hintJson h) hdecode]
  rfl

end HintsBuilder

/-- A patch deletes or replaces its range, or inserts, as it was asked for: its id stands for the
text in the vocabulary. -/
def WantedFor (vocabulary : List Bytes) (p : Patch) (w : HintsBuilder.Wanted) : Prop :=
  ∃ v, p = { left := some w.l, right := some w.r, value := v } ∧
    match w.text with
    | none => v = none
    | some s => ∃ i, v = some i ∧ vocabulary[i]? = some s

/-- The bundle has the hints that are wanted, with their patches and no more, and one id for each
text. -/
structure CarriesHints (bundle : HintBundle) (wanted : List (List HintsBuilder.Wanted)) : Prop where
  plain : ∀ h ∈ bundle.hints, h.type = none ∧ h.extra = none
  hints : List.Forall₂ (fun h ws => List.Forall₂ (WantedFor bundle.vocabulary) h.patches ws)
    bundle.hints wanted
  ids : bundle.vocabulary.Nodup

/-- The hints of a transformation survive the pipe. -/
theorem clang_hints_carried {decodeHint : Bytes → Except PyErr Hint}
    (scopes : List (List PatchCall)) (reversed : Bool)
    (hnul : ∀ calls ∈ scopes, ∀ c ∈ calls, 0 ∉ c.text)
    (hdecode : ∀ h ∈ (HintsBuilder.build scopes reversed).hints,
      decodeHint (HintsBuilder.hintJson h) = .ok (hintOfPatches h)) :
    ∃ bundle, parseClangDeltaHints decodeHint (HintsBuilder.build scopes reversed).output =
      .ok bundle ∧ CarriesHints bundle (HintsBuilder.wantedHints scopes reversed) := by
  have hrec := HintsBuilder.build_records scopes reversed
  refine ⟨_, HintsBuilder.parse_output (HintsBuilder.build_worded reversed hnul) hdecode,
    ?_, ?_, hrec.nodup⟩
  · intro h hh
    obtain ⟨patches, -, rfl⟩ := List.mem_map.1 hh
    exact ⟨rfl, rfl⟩
  · refine List.forall₂_map_left_iff.2 (hrec.hints.imp fun patches ws hh => ?_)
    refine List.forall₂_map_left_iff.2 (hh.imp fun p w hp => ?_)
    obtain ⟨hl, hr, hv⟩ := hp
    exact ⟨p.v, by rw [hl, hr], hv⟩

/-- Two scopes in the order of their making, of which the second replaces by a text with a newline
in it. -/
def sampleScopes : List (List PatchCall) :=
  [[.range 3 2 [], .insertion 9 [59]], [.range 5 0 [120], .range 7 4 [97, 10, 98]]]

def sampleDecoder (line : Bytes) : Except PyErr Hint :=
  if line = HintsBuilder.ascii "\x7b\"p\":[\x7b\"l\":7,\"r\":11,\"v\":1\x7d]\x7d" then
    .ok { patches := [{ left := some 7, right := some 11, value := some 1 }] }
  else if line = HintsBuilder.ascii
      "\x7b\"p\":[\x7b\"l\":3,\"r\":5\x7d,\x7b\"l\":9,\"r\":9,\"v\":0\x7d]\x7d" then
    .ok { patches := [{ left := some 3, right := some 5 },
      { left := some 9, right := some 9, value := some 0 }] }
  else .error .other

theorem clang_hints_carried_sample : ∃ bundle, parseClangDeltaHints sampleDecoder
    (HintsBuilder.build sampleScopes true).output = .ok bundle ∧
      CarriesHints bundle (HintsBuilder.wantedHints sampleScopes true) :=
  clang_hints_carried sampleScopes true (by decide) (by decide +kernel)

end Cvise
