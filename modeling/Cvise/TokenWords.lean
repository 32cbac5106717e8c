import Cvise.LineSplice
import Mathlib.Data.List.Chain

namespace Cvise
set_option autoImplicit true
open Pattern

variable {word : Bytes}

def Scans (word : Bytes) : Prop := ∃ rule ∈ clexRules, word ∈ rule.1.language

theorem scans_iff : Scans word ↔ ∃ action, firstRule clexRules word = some action := by
  constructor
  · intro h
    cases hfirst : firstRule clexRules word with
    | some action => exact ⟨action, rfl⟩
    | none =>
      obtain ⟨rule, hrule, hmem⟩ := h
      exact absurd hmem (firstRule_eq_none.1 hfirst rule hrule)
  · intro h
    obtain ⟨action, h⟩ := h
    obtain ⟨p, hp, hmem⟩ := firstRule_mem h
    exact ⟨(p, action), hp, hmem⟩

/-- What the scanner matches: a word of a rule that no longer word of a rule extends. -/
theorem matchRule_word {word after : Bytes} (hne : word ++ after ≠ [])
    (h : matchRule (word ++ after) = (word.length, action)) :
    firstRule clexRules word = some action ∧ ∀ q, q ≠ [] → q <+: after → ¬ Scans (word ++ q) := by
  obtain ⟨p, hp, hmem⟩ := matchRule_mem hne
  obtain ⟨n, r, hn, -⟩ := le_munch hp (matchRule_le hne) hmem
  have hmatch : matchRule (word ++ after) = (n, r) := by rw [matchRule, hn]; rfl
  obtain ⟨rfl, rfl⟩ := Prod.mk.inj (hmatch.symm.trans h)
  obtain ⟨hfirst, hlonger⟩ := munch_first hn
  rw [List.take_left] at hfirst
  refine ⟨hfirst, fun q hq hprefix hscans => ?_⟩
  obtain ⟨rest, rfl⟩ := hprefix
  obtain ⟨action', haction⟩ := scans_iff.1 hscans
  have hlen : (word ++ q).length ≤ (word ++ (q ++ rest)).length := by
    simp only [List.length_append]
    omega
  have hlt : word.length < (word ++ q).length := by
    rw [List.length_append]
    have hpos := List.length_pos_iff.2 hq
    omega
  have hnone := hlonger _ hlt hlen
  rw [← List.append_assoc, List.take_left, haction] at hnone
  cases hnone

def identPattern : Pattern UInt8 := seq letterPattern (star (alt letterPattern digitPattern))

def numberPatterns : List (Pattern UInt8) :=
  [seq (quoted "0") (seq (oneOf "xX") (seq (plus hexPattern) (opt intSuffix))),
    seq (quoted "0") (seq (plus digitPattern) (opt intSuffix)),
    seq (plus digitPattern) (opt intSuffix),
    seq (plus digitPattern) (seq exponentPattern (opt floatSuffix)),
    seq (star digitPattern) (seq (quoted ".") (seq (plus digitPattern)
      (seq (opt exponentPattern) (opt floatSuffix)))),
    seq (plus digitPattern) (seq (quoted ".") (seq (star digitPattern)
      (seq (opt exponentPattern) (opt floatSuffix))))]

theorem mem_quoted {s : String} : word ∈ (quoted s).language ↔ word = s.toUTF8.data.toList :=
  mem_word _

/-- How far a literal goes behind its opening quote, `escaped` behind a backslash. -/
def closing (q : UInt8) : Bool → Bytes → Option Nat
  | _, [] => none
  | escaped, b :: rest =>
    if escaped then if b = 10 then none else (closing q false rest).map (· + 1)
    else if b = q then some 1
    else (closing q (b = 92) rest).map (· + 1)

/-- The words of the literal rule for a quote. -/
def LiteralWord (q : UInt8) (word : Bytes) : Prop := ∃ start rest,
  (start = [] ∨ start = [76]) ∧ word = start ++ q :: rest ∧
    closing q false rest = some rest.length ∧ (q = 39 → rest.head? ≠ some 39)

theorem mem_literalPart {stops : String} (hstops : stops.toUTF8.data.toList = [92, q]) :
    word ∈ (literalPart stops).language ↔
      (∃ b, word = [92, b] ∧ b ≠ 10) ∨ ∃ b, word = [b] ∧ b ≠ 92 ∧ b ≠ q := by
  have hnl : "\n".toUTF8.data.toList = [10] := by decide
  have hback : "\\".toUTF8.data.toList = [92] := by decide
  rw [literalPart, mem_alt, mem_seq]
  refine or_congr ?_ ?_
  · constructor
    · rintro ⟨t, ht, u, ⟨b, hb, rfl⟩, rfl⟩
      rw [mem_quoted, hback] at ht
      subst ht
      rw [hnl] at hb
      exact ⟨b, rfl, by simpa using hb⟩
    · rintro ⟨b, rfl, hb⟩
      refine ⟨[92], mem_quoted.2 hback.symm, [b], ⟨b, ?_, rfl⟩, rfl⟩
      rw [hnl]
      simpa using hb
  · constructor
    · rintro ⟨b, hb, rfl⟩
      rw [hstops] at hb
      exact ⟨b, rfl, by simpa using hb⟩
    · rintro ⟨b, rfl, hb⟩
      refine ⟨b, ?_, rfl⟩
      rw [hstops]
      simpa using hb

theorem closing_literal {stops : String} (hstops : stops.toUTF8.data.toList = [92, q])
    (hq : q ≠ 92) {body : Bytes} (h : body ∈ (star (literalPart stops)).language) :
    closing q false (body ++ [q]) = some (body ++ [q]).length := by
  obtain ⟨parts, rfl, hparts⟩ := Language.mem_kstar.1 h
  clear h
  induction parts with
  | nil =>
    rw [List.flatten_nil, List.nil_append, closing, if_neg Bool.false_ne_true, if_pos rfl]
    rfl
  | cons part parts ih =>
    obtain ⟨hpart, hparts⟩ := List.forall_mem_cons.1 hparts
    have hrest := ih hparts
    rw [List.flatten_cons, List.append_assoc]
    rcases (mem_literalPart hstops).1 hpart with ⟨b, rfl, hb⟩ | ⟨b, rfl, hback, hbq⟩
    · show closing q false (92 :: b :: (parts.flatten ++ [q])) = _
      rw [closing, if_neg Bool.false_ne_true, if_neg hq.symm, closing, if_pos (decide_eq_true rfl),
        if_neg hb, hrest]
      simp only [Option.map_some, List.length_append, List.length_cons, List.length_nil]
      congr 1
      omega
    · show closing q false (b :: (parts.flatten ++ [q])) = _
      rw [closing, if_neg Bool.false_ne_true, if_neg hbq, decide_eq_false hback, hrest]
      simp only [Option.map_some, List.length_append, List.length_cons, List.length_nil]
      congr 1
      omega

theorem literal_of_closing {stops : String} (hstops : stops.toUTF8.data.toList = [92, q])
    {s : Bytes} : (∀ n, closing q false s = some n → ∃ body ∈ (star (literalPart stops)).language,
      s.take n = body ++ [q]) ∧
    ∀ n, closing q true s = some n → ∃ b, b ≠ 10 ∧
      ∃ body ∈ (star (literalPart stops)).language, s.take n = b :: (body ++ [q]) := by
  induction s with
  | nil =>
    constructor
    · intro n h
      cases h
    · intro n h
      cases h
  | cons b s ih =>
    constructor
    · intro n h
      rw [closing, if_neg Bool.false_ne_true] at h
      by_cases hbq : b = q
      · rw [if_pos hbq] at h
        cases h
        exact ⟨[], Language.nil_mem_kstar _, by rw [hbq]; rfl⟩
      · rw [if_neg hbq] at h
        obtain ⟨m, hm, rfl⟩ := Option.map_eq_some_iff.1 h
        by_cases hback : b = 92
        · rw [decide_eq_true hback] at hm
          obtain ⟨c, hc, body, hbody, htake⟩ := ih.2 m hm
          refine ⟨92 :: c :: body, cons_mem_star.2 ⟨[c], ?_, body, hbody, rfl⟩, ?_⟩
          · exact (mem_literalPart hstops).2 (.inl ⟨c, rfl, hc⟩)
          · rw [List.take_succ_cons, htake, hback]
            rfl
        · rw [decide_eq_false hback] at hm
          obtain ⟨body, hbody, htake⟩ := ih.1 m hm
          refine ⟨b :: body, cons_mem_star.2 ⟨[], ?_, body, hbody, rfl⟩, ?_⟩
          · exact (mem_literalPart hstops).2 (.inr ⟨b, rfl, hback, hbq⟩)
          · rw [List.take_succ_cons, htake]
            rfl
    · intro n h
      rw [closing, if_pos rfl] at h
      by_cases hb : b = 10
      · rw [if_pos hb] at h
        cases h
      · rw [if_neg hb] at h
        obtain ⟨m, hm, rfl⟩ := Option.map_eq_some_iff.1 h
        obtain ⟨body, hbody, htake⟩ := ih.1 m hm
        exact ⟨b, hb, body, hbody, by rw [List.take_succ_cons, htake]⟩

def charPattern : Pattern UInt8 :=
  seq (opt (quoted "L")) (seq (quoted "'") (seq (plus (literalPart "\\'")) (quoted "'")))

def stringPattern : Pattern UInt8 :=
  seq (opt (quoted "L")) (seq (quoted "\"") (seq (star (literalPart "\\\"")) (quoted "\"")))

theorem string_stops : "\\\"".toUTF8.data.toList = [92, 34] := by decide

theorem mem_literalStart : word ∈ (opt (quoted "L")).language ↔ word = [] ∨ word = [76] := by
  have hl : "L".toUTF8.data.toList = [76] := by decide
  rw [mem_opt, mem_quoted, hl, or_comm]

/-- The words of a literal rule, by what is between the quotes. -/
theorem literalWord_iff {stops : String} (hstops : stops.toUTF8.data.toList = [92, q])
    (hq : q ≠ 92) : LiteralWord q word ↔ ∃ start body, (start = [] ∨ start = [76]) ∧
      word = start ++ q :: (body ++ [q]) ∧ body ∈ (star (literalPart stops)).language ∧
        (q = 39 → body ≠ []) := by
  constructor
  · rintro ⟨start, rest, hstart, rfl, hclosing, hchar⟩
    obtain ⟨body, hbody, htake⟩ := (literal_of_closing hstops).1 _ hclosing
    rw [List.take_length] at htake
    subst htake
    refine ⟨start, body, hstart, rfl, hbody, fun hq39 => ?_⟩
    rintro rfl
    refine hchar hq39 ?_
    rw [hq39]
    rfl
  · rintro ⟨start, body, hstart, rfl, hbody, hchar⟩
    refine ⟨start, _, hstart, rfl, closing_literal hstops hq hbody, fun hq39 => ?_⟩
    obtain ⟨b, body, rfl⟩ := List.exists_cons_of_ne_nil (hchar hq39)
    obtain ⟨t, ht, u, -, rfl⟩ := cons_mem_star.1 hbody
    intro hb
    obtain rfl : b = 39 := Option.some.inj hb
    rcases (mem_literalPart hstops).1 ht with ⟨c, he, -⟩ | ⟨c, he, -, hne⟩
    · cases he
    · obtain ⟨rfl, -⟩ := List.cons.inj he
      exact hne hq39.symm

theorem lexicalRules_eq : lexicalRules = (identPattern, .token .ident) ::
    ((numberPatterns.take 3).map fun p => (p, .token .number)) ++ (charPattern, .token .other) ::
      ((numberPatterns.drop 3).map fun p => (p, .token .number)) ++
        [(stringPattern, .token .string), (quoted "...", .token .other)] := rfl

theorem mem_stringPattern : word ∈ stringPattern.language ↔ LiteralWord 34 word := by
  have hquote : "\"".toUTF8.data.toList = [34] := by decide
  rw [stringPattern, literalWord_iff string_stops (by decide), mem_seq]
  constructor
  · rintro ⟨start, hstart, u, hu, rfl⟩
    obtain ⟨z, hz, v, hv, rfl⟩ := mem_seq.1 hu
    obtain ⟨body, hbody, z', hz', rfl⟩ := mem_seq.1 hv
    rw [mem_quoted, hquote] at hz hz'
    subst hz hz'
    exact ⟨start, body, mem_literalStart.1 hstart, rfl, hbody, fun he => absurd he (by decide)⟩
  · rintro ⟨start, body, hstart, rfl, hbody, -⟩
    exact ⟨start, mem_literalStart.2 hstart, _, mem_seq.2 ⟨[34], mem_quoted.2 hquote.symm, _,
      mem_seq.2 ⟨body, hbody, [34], mem_quoted.2 hquote.symm, rfl⟩, rfl⟩, rfl⟩

end Cvise
