import Cvise.ClexDefine
import Cvise.LineReplacement
import Mathlib.Data.List.TakeWhile

namespace Cvise
set_option autoImplicit true

def wordsOf (toks : List Tok) : List Bytes := toks.map (·.str)

/-- The tokens that are put for a macro, out of those behind its name. -/
def bodyOf (after : List Tok) : List Tok :=
  (after.dropWhile (·.kind = .ws)).takeWhile (·.kind ≠ .newline)

def replacedWords (before : List Tok) (name : Tok) (after : List Tok) : List Bytes :=
  replaceAll name.str (wordsOf (bodyOf after)) (wordsOf before) ++
    name.str :: replaceAll name.str (wordsOf (bodyOf after)) (wordsOf after)

/-- The definition with an index among those of used macros, with a line that has an end. -/
structure Chosen (idx : Int) (toks before : List Tok) (name : Tok) (after : List Tok) : Prop where
  split : toks = before ++ name :: after
  used : Used toks name.str
  not_blank : name.kind ≠ .ws
  counted : ∃ (cs : List Chunk) (c : Chunk), (∀ d ∈ cs, d.Valid) ∧ c.Valid ∧ c.Defines toks ∧
    before ++ [name] = cs.flatMap Chunk.toks ++ c.toks ∧
    (cs.countP (Chunk.Defines toks ·) : Int) = idx
  ended : ∃ t ∈ after, t.kind = .newline

theorem chunks_unique {all after after' : List Tok} {cs cs' : List Chunk} {c c' : Chunk}
    (hcs : ∀ d ∈ cs, d.Valid) (hc : c.Valid) (hd : c.Defines all)
    (h : all.drop i = cs.flatMap Chunk.toks ++ (c.toks ++ after))
    (hcs' : ∀ d ∈ cs', d.Valid) (hc' : c'.Valid) (hd' : c'.Defines all)
    (h' : all.drop i = cs'.flatMap Chunk.toks ++ (c'.toks ++ after'))
    (hcount : cs.countP (Chunk.Defines all ·) = cs'.countP (Chunk.Defines all ·)) :
    after = after' := by
  induction cs generalizing i cs' with
  | nil =>
    cases cs' with
    | nil => exact (Chunk.unique hc hc' h h').1
    | cons d' cs' =>
      rw [List.flatMap_cons, List.append_assoc] at h'
      have hdef := (Chunk.unique hc (hcs' d' List.mem_cons_self) h h').2.1 hd
      rw [List.countP_nil, List.countP_cons, if_pos (decide_eq_true hdef)] at hcount
      omega
  | cons d cs ih =>
    rw [List.flatMap_cons, List.append_assoc] at h
    cases cs' with
    | nil =>
      have hdef := (Chunk.unique (hcs d List.mem_cons_self) hc' h h').2.2 hd'
      rw [List.countP_nil, List.countP_cons, if_pos (decide_eq_true hdef)] at hcount
      omega
    | cons d' cs' =>
      rw [List.flatMap_cons, List.append_assoc] at h'
      obtain ⟨hrest, hdef⟩ := Chunk.unique (hcs d List.mem_cons_self)
        (hcs' d' List.mem_cons_self) h h'
      have hat := drop_behind h
      rw [List.countP_cons, List.countP_cons, decide_eq_decide.2 hdef,
        Nat.add_right_cancel_iff] at hcount
      exact ih (fun d hd => hcs d (List.mem_cons_of_mem _ hd)) hat
        (fun d hd => hcs' d (List.mem_cons_of_mem _ hd)) (hat.trans hrest) hcount

theorem Chosen.unique {toks before before' after after' : List Tok}
    (h : Chosen idx toks before name after) (h' : Chosen idx toks before' name' after') :
    before = before' ∧ name = name' ∧ after = after' := by
  obtain ⟨cs, c, hcs, hc, hd, hsplit, hcount⟩ := h.counted
  obtain ⟨cs', c', hcs', hc', hd', hsplit', hcount'⟩ := h'.counted
  have hall : toks.drop 0 = cs.flatMap Chunk.toks ++ (c.toks ++ after) := by
    rw [List.drop_zero, ← List.append_assoc, ← hsplit, h.split, List.append_cons]
  have hall' : toks.drop 0 = cs'.flatMap Chunk.toks ++ (c'.toks ++ after') := by
    rw [List.drop_zero, ← List.append_assoc, ← hsplit', h'.split, List.append_cons]
  have hafter : after = after' := chunks_unique hcs hc hd hall hcs' hc' hd' hall'
    (Int.natCast_inj.1 (hcount.trans hcount'.symm))
  have heq := h.split.symm.trans h'.split
  rw [List.append_cons before, List.append_cons before', hafter] at heq
  obtain ⟨hbefore, hname⟩ := List.append_inj' (List.append_cancel_right heq) rfl
  exact ⟨hbefore, (List.cons.inj hname).1, hafter⟩

theorem flatten_replaceAll (name : Bytes) (body : List Bytes) (toks : List Tok) :
    (replaceAll name body (wordsOf toks)).flatten =
      toks.flatMap fun t => if t.str = name then body.flatten else t.str := by
  induction toks with
  | nil => rfl
  | cons t toks ih =>
    show (replaceAll name body (t.str :: wordsOf toks)).flatten = _
    rw [replaceAll_cons, List.flatten_append, ih, List.flatMap_cons]
    congr 1
    split
    · rfl
    · exact List.append_nil _

theorem flatMap_apart {toks : List Tok} {off i : Nat} (hi : i < off ∨ off + toks.length ≤ i)
    (body name : Bytes) :
    ((toks.zipIdx off).flatMap fun (t, x) => if x ≠ i ∧ t.str = name then body else t.str) =
      toks.flatMap fun t => if t.str = name then body else t.str := by
  induction toks generalizing off with
  | nil => rfl
  | cons t toks ih =>
    rw [List.length_cons] at hi
    rw [List.zipIdx_cons, List.flatMap_cons, List.flatMap_cons, ih (by omega)]
    have hne : off ≠ i := by omega
    simp only [hne, ne_eq, not_false_eq_true, true_and]

theorem dropWhile_blanks {blanks : List Tok} (h : BlanksAt toks i j blanks t after) :
    (blanks ++ t :: after).dropWhile (·.kind = .ws) = t :: after := by
  rw [List.dropWhile_append_of_pos (blanks_stay h.allBlank), List.dropWhile_cons_of_neg]
  exact fun he => h.other (of_decide_eq_true he)

theorem replaceMacro_eq {toks before after : List Tok} (hsplit : toks = before ++ name :: after)
    (h : replaceMacro toks before.length = some out) :
    out = (replacedWords before name after).flatten := by
  have hdrop : toks.drop before.length = name :: after := by rw [hsplit, List.drop_left]
  have hafter : toks.drop (before.length + 1) = after := drop_next hdrop
  rw [replaceMacro, getElem_of_drop hdrop] at h
  obtain ⟨_, hname, h⟩ := Option.bind_eq_some_iff.1 h
  obtain rfl := Option.some.inj hname
  obtain ⟨start, hstart, h⟩ := Option.bind_eq_some_iff.1 h
  obtain ⟨stop, hstop, h⟩ := Option.bind_eq_some_iff.1 h
  obtain ⟨blanks, t, rest, hat⟩ := skipBlanks_some hstart
  obtain ⟨run, nl, rest', hrun, hrunall, hnl, rfl⟩ := skipWhile_some hstop
  have hbody : bodyOf after = run := by
    rw [bodyOf, ← hafter, hat.read, dropWhile_blanks hat, ← hat.here, hrun,
      List.takeWhile_append_of_pos hrunall, List.takeWhile_cons_of_neg, List.append_nil]
    rw [hnl]
    exact Bool.false_ne_true
  have htake : (toks.take (start + run.length)).drop start = run := by
    rw [List.drop_take, hrun, Nat.add_sub_cancel_left, List.take_left]
  have hflat : run.flatMap (·.str) = (wordsOf (bodyOf after)).flatten := by
    rw [hbody, wordsOf, List.flatMap_def]
  obtain rfl := Option.some.inj h
  rw [htake, hflat, hsplit, List.zipIdx_append, List.zipIdx_cons, List.flatMap_append,
    List.flatMap_cons, flatMap_apart (.inr (Nat.zero_add _).le),
    flatMap_apart (.inl (by omega)), replacedWords, List.flatten_append, List.flatten_cons,
    flatten_replaceAll, flatten_replaceAll]
  simp only [Nat.zero_add, ne_eq, not_true_eq_false, false_and, if_false]

/-- Where a successful run stops, when it is at the token `i` and has found so many macros. -/
structure StoppedAt (idx : Int) (toks : List Tok) (i : Nat) (found : Int) (cs : List Chunk)
    (c : Chunk) (after : List Tok) : Prop where
  chunks : ∀ d ∈ cs, d.Valid
  chunk : c.Valid
  defines : c.Defines toks
  split : toks.drop i = cs.flatMap Chunk.toks ++ (c.toks ++ after)
  count : found + (cs.countP (Chunk.Defines toks ·) : Int) = idx

theorem StoppedAt.cons {toks after : List Tok} {d c : Chunk} {cs : List Chunk} (hd : d.Valid)
    (hdrop : toks.drop i = d.toks ++ toks.drop (i + d.toks.length))
    (h : StoppedAt idx toks (i + d.toks.length) (if d.Defines toks then found + 1 else found) cs c
      after) : StoppedAt idx toks i found (d :: cs) c after := by
  refine ⟨List.forall_mem_cons.2 ⟨hd, h.chunks⟩, h.chunk, h.defines, ?_, ?_⟩
  · rw [hdrop, h.split, List.flatMap_cons, List.append_assoc]
  · have hcount := h.count
    rw [List.countP_cons]
    by_cases hdef : d.Defines toks
    · rw [if_pos hdef] at hcount
      rw [if_pos (decide_eq_true hdef), Int.natCast_add]
      omega
    · rw [if_neg hdef] at hcount
      rw [if_neg fun he => hdef (of_decide_eq_true he)]
      exact hcount

theorem defineLoop_ok {toks : List Tok} (h : defineLoop idx toks i found = some ⟨51, out⟩) :
    ∃ cs c after, StoppedAt idx toks i found cs c after ∧
      replaceMacro toks (i + (cs.flatMap Chunk.toks).length + (c.toks.length - 1)) = some out := by
  induction i, found using defineLoop.induct idx toks with
  | case1 i found hend =>
    rw [defineLoop_end hend] at h
    cases h
  | case2 i found hi hr =>
    rw [defineLoop_round (Nat.lt_of_not_le hi), hr] at h
    cases h
  | case3 i found hi j hr ih =>
    obtain ⟨d, hd, hdrop, hdef, rfl⟩ := defineRound_next hr
    rw [defineLoop_round (Nat.lt_of_not_le hi), hr] at h
    obtain ⟨cs, c, after, hstop, hout⟩ := ih h
    refine ⟨d :: cs, c, after, StoppedAt.cons hd hdrop ?_, ?_⟩
    · rw [if_neg hdef]
      exact hstop
    · rw [List.flatMap_cons, List.length_append, ← Nat.add_assoc]
      exact hout
  | case4 i hi j hr =>
    obtain ⟨c, hc, hdrop, hd, hj⟩ := defineRound_used hr
    rw [defineLoop_round (Nat.lt_of_not_le hi), hr, Option.bind_some] at h
    simp only [if_true] at h
    obtain ⟨out', hout, he⟩ := Option.map_eq_some_iff.1 h
    obtain ⟨-, rfl⟩ := ClexOutput.mk.inj he
    refine ⟨[], c, _, ⟨fun d hd => absurd hd List.not_mem_nil, hc, hd, hdrop, ?_⟩, ?_⟩
    · rw [List.countP_nil]
      exact Int.add_zero _
    · rw [List.flatMap_nil, List.length_nil, Nat.add_zero, ← hj]
      exact hout
  | case5 i found hi j hr hidx ih =>
    obtain ⟨d, hd, hdrop, hdef, hj⟩ := defineRound_used hr
    have hlen : j + 1 = i + d.toks.length := by
      have hpos := d.toks_pos
      omega
    rw [defineLoop_round (Nat.lt_of_not_le hi), hr, Option.bind_some] at h
    simp only [hidx, if_false] at h
    obtain ⟨cs, c, after, hstop, hout⟩ := ih h
    rw [hlen] at hdrop hstop hout
    refine ⟨d :: cs, c, after, StoppedAt.cons hd hdrop ?_, ?_⟩
    · rw [if_pos hdef]
      exact hstop
    · rw [List.flatMap_cons, List.length_append, ← Nat.add_assoc]
      exact hout

theorem define_ok {toks : List Tok} (h : define idx toks = some ⟨51, out⟩) :
    ∃ before name after, Chosen idx toks before name after ∧
      out = (replacedWords before name after).flatten := by
  obtain ⟨cs, c, after, hstop, hout⟩ := defineLoop_ok h
  have hdrop : toks.drop (cs.flatMap Chunk.toks).length = c.toks ++ after := by
    rw [← Nat.zero_add (List.length _)]
    exact drop_behind hstop.split
  obtain ⟨name, hused, hblank, hat⟩ := hstop.defines.name hstop.chunk hdrop
  obtain ⟨before, hsplit, hbefore⟩ := split_at_drop hat
  rw [Nat.zero_add, ← hbefore] at hout
  refine ⟨before, name, after, ⟨hsplit, hused, hblank, ⟨cs, c, hstop.chunks, hstop.chunk,
    hstop.defines, ?_, ?_⟩, ?_⟩, replaceMacro_eq hsplit hout⟩
  · have heq := hstop.split
    rw [List.drop_zero, hsplit, ← List.append_assoc, List.append_cons] at heq
    exact List.append_cancel_right heq
  · rw [← hstop.count, Int.zero_add]
  · exact (replaceMacro_isSome (by rw [hsplit, List.drop_left])).1 (Option.isSome_of_eq_some hout)

/-- A file that is the texts of its tokens. -/
structure Plain (data : Bytes) : Prop where
  no_comment : ∀ l ∈ scanFile data, l.action ≠ .comment
  no_nul : 0 ∉ data

theorem placed_words (p : PathId) (off : Nat) {ls : List Lexeme} (h : ∀ l ∈ ls, l.IsPlain) :
    wordsOf (placed p off ls) = ls.map (·.text) := by
  induction ls generalizing off with
  | nil => rfl
  | cons l ls ih =>
    obtain ⟨kind, -, hplaced⟩ := placed_plain p off ls (h l List.mem_cons_self)
    have hrest := ih (off + l.text.length) fun l hl => h l (List.mem_cons_of_mem _ hl)
    rw [hplaced, List.map_cons, ← hrest]
    rfl

theorem Plain.words (h : Plain data) : (wordsOf (fileToks data)).flatten = data := by
  rw [fileToks, placed_words _ _ (isPlain_of_scanFile h.no_comment h.no_nul), ← List.flatMap_def]
  exact textOf_scanFile data

theorem scanFile_firstRule (hl : l ∈ scanFile data) (ha : l.action = .token kind) :
    firstRule clexRules l.text = some (.token kind) := by
  obtain ⟨before, after, hscan⟩ := List.append_of_mem hl
  have hread := scanFile_read hscan
  have hlen := hread.length
  rw [lexemeLength, hread.action, ha, if_neg Action.noConfusion] at hlen
  have hmatch : matchRule (l.text ++ textOf after) = (l.text.length, .token kind) :=
    Prod.ext hlen (hread.action.trans ha)
  exact (matchRule_word (fun he => hread.ne_nil (List.append_eq_nil_iff.1 he).1) hmatch).1

theorem mem_placed (p : PathId) (off : Nat) (ls : List Lexeme) (ht : t ∈ placed p off ls) :
    ∃ l ∈ ls, l.Gives t := by
  revert ht
  refine placed_induction (motive := fun ls toks => t ∈ toks → ∃ l ∈ ls, l.Gives t)
    (fun ht => absurd ht List.not_mem_nil) ?_ ?_ p off ls
  · intro l ls toks ih ht
    obtain ⟨l', hl', hgives⟩ := ih ht
    exact ⟨l', List.mem_cons_of_mem _ hl', hgives⟩
  · intro l t' ls toks hgives ih ht
    rcases List.mem_cons.1 ht with rfl | ht
    · exact ⟨l, List.mem_cons_self, hgives⟩
    · obtain ⟨l', hl', hgives'⟩ := ih ht
      exact ⟨l', List.mem_cons_of_mem _ hl', hgives'⟩

theorem Plain.kind (h : Plain data) (ht : t ∈ fileToks data) :
    firstRule clexRules t.str = some (.token t.kind) := by
  obtain ⟨l, hl, hgives⟩ := mem_placed _ _ _ ht
  have hplain := isPlain_of_scanFile h.no_comment h.no_nul l hl
  rw [hgives.str, strdup_eq hplain.2]
  exact scanFile_firstRule hl hgives.action

def blankWords : List Bytes := [[32], [9], [11], [12]]

def newlineWord : Bytes := [10]

theorem wsRule_eq (h : (p, Action.token .ws) ∈ clexRules) : p = oneOf " \t\x0b\x0c" := by
  simpa [clexRules, lexicalRules_eq, numberPatterns] using h

theorem newlineRule_eq (h : (p, Action.token .newline) ∈ clexRules) : p = newlinePattern := by
  simpa [clexRules, lexicalRules_eq, numberPatterns] using h

theorem ws_iff (h : firstRule clexRules word = some (.token kind)) :
    kind = .ws ↔ word ∈ blankWords := by
  constructor
  · rintro rfl
    obtain ⟨p, hp, hmem⟩ := firstRule_mem h
    have hblanks : " \t\x0b\x0c".toUTF8.data.toList = [32, 9, 11, 12] := by decide
    rw [wsRule_eq hp, oneOf, Pattern.mem_sat, hblanks] at hmem
    obtain ⟨b, hb, rfl⟩ := hmem
    simpa [blankWords] using hb
  · intro hword
    have hall : (blankWords.all fun w => firstRule clexRules w == some (.token .ws)) = true := rfl
    rw [eq_of_beq (List.all_eq_true.1 hall word hword)] at h
    exact (Action.token.inj (Option.some.inj h)).symm

theorem newline_iff (h : firstRule clexRules word = some (.token kind)) :
    kind = .newline ↔ word = newlineWord := by
  constructor
  · rintro rfl
    obtain ⟨p, hp, hmem⟩ := firstRule_mem h
    have hnl : "\n".toUTF8.data.toList = [10] := by decide
    rw [newlineRule_eq hp, newlinePattern, oneOf, Pattern.mem_sat, hnl] at hmem
    obtain ⟨b, hb, rfl⟩ := hmem
    simpa [newlineWord] using hb
  · rintro rfl
    have hfirst : firstRule clexRules newlineWord = some (.token .newline) := rfl
    rw [hfirst] at h
    exact (Action.token.inj (Option.some.inj h)).symm

/-- The name is not among what is put for it, and the scanner reads what is printed as the words
that it is made of. -/
structure Separates (before : List Tok) (name : Tok) (after : List Tok) : Prop where
  fresh : name.str ∉ wordsOf (bodyOf after)
  apart : wordsOf (fileToks (replacedWords before name after).flatten) =
    replacedWords before name after

/-- A file in which the definition with the index can be replaced for good. -/
structure Replaceable (idx : Int) (data : Bytes) : Prop where
  plain : Plain data
  separates : ∀ before name after, Chosen idx (fileToks data) before name after →
    Separates before name after

theorem bodyOf_sublist (after : List Tok) : (bodyOf after).Sublist after :=
  (List.takeWhile_sublist _).trans (List.dropWhile_sublist _)

/-- The definition is used afterwards if its body has the name. -/
theorem used_replaced (before : List Tok) (name : Tok) (after : List Tok) :
    1 < (replacedWords before name after).count name.str ↔
      name.str ∈ wordsOf (bodyOf after) := by
  rw [replacedWords, List.count_append, List.count_cons_self]
  constructor
  · intro hcount
    by_contra hbody
    have hnone (s : List Bytes) :
        (replaceAll name.str (wordsOf (bodyOf after)) s).count name.str = 0 := by
      refine List.count_eq_zero.2 fun hmem => ?_
      rcases mem_replaceAll.1 hmem with ⟨-, hne⟩ | ⟨-, hin⟩
      · exact hne rfl
      · exact hbody hin
    rw [hnone, hnone] at hcount
    omega
  · intro hbody
    have hafter : name.str ∈ wordsOf after := ((bodyOf_sublist after).map (·.str)).subset hbody
    have hpos : 0 < (replaceAll name.str (wordsOf (bodyOf after)) (wordsOf after)).count
        name.str := List.count_pos_iff.2 (mem_replaceAll.2 (.inr ⟨hafter, hbody⟩))
    omega

theorem filter_replaceAll {p : Bytes → Bool} {a : Bytes} (hp : p a = true) (v s : List Bytes) :
    (replaceAll a v s).filter p = replaceAll a (v.filter p) (s.filter p) := by
  induction s with
  | nil => rfl
  | cons y s ih =>
    rw [replaceAll_cons, List.filter_append, ih, List.filter_cons]
    by_cases hy : y = a
    · rw [if_pos hy, hy, if_pos hp, replaceAll_cons, if_pos rfl]
    · rw [if_neg hy, List.filter_cons]
      split
      · rw [replaceAll_cons, if_neg hy]
        rfl
      · rfl

/-- The words of a file but for the blanks. -/
def inkOf (ws : List Bytes) : List Bytes := ws.filter fun w => decide (w ∉ blankWords)

theorem inkOf_append (ws ws' : List Bytes) : inkOf (ws ++ ws') = inkOf ws ++ inkOf ws' :=
  List.filter_append ws ws'

theorem inkOf_blank {toks : List Tok} (h : ∀ t ∈ toks, t.str ∈ blankWords) :
    inkOf (wordsOf toks) = [] := by
  rw [inkOf, List.filter_eq_nil_iff]
  intro w hw
  obtain ⟨t, ht, rfl⟩ := List.mem_map.1 hw
  exact fun he => of_decide_eq_true he (h t ht)

theorem inkOf_cons (h : w ∉ blankWords) (ws : List Bytes) : inkOf (w :: ws) = w :: inkOf ws :=
  List.filter_cons_of_pos (decide_eq_true h)

/-- The words behind the name: blanks, those that are put for it, and the end of the line. -/
theorem Chosen.inkOf_after (hplain : Plain data)
    (h : Chosen idx (fileToks data) before name after) : ∃ rest, inkOf (wordsOf after) =
      inkOf (wordsOf (bodyOf after)) ++ newlineWord :: rest ∧
      newlineWord ∉ inkOf (wordsOf (bodyOf after)) := by
  have hkind (t : Tok) (ht : t ∈ after) : firstRule clexRules t.str = some (.token t.kind) := by
    refine hplain.kind ?_
    rw [h.split]
    exact List.mem_append_right _ (List.mem_cons_of_mem _ ht)
  have hblanks := List.takeWhile_append_dropWhile (p := fun t : Tok => decide (t.kind = .ws))
    (l := after)
  have hline := List.takeWhile_append_dropWhile (p := fun t : Tok => decide (t.kind ≠ .newline))
    (l := after.dropWhile (·.kind = .ws))
  have hblank : inkOf (wordsOf (after.takeWhile (·.kind = .ws))) = [] := by
    refine inkOf_blank fun t ht => ?_
    refine (ws_iff (hkind t ((List.takeWhile_sublist _).subset ht))).1 ?_
    simpa using List.mem_takeWhile_imp ht
  have hbody : newlineWord ∉ inkOf (wordsOf (bodyOf after)) := by
    intro hmem
    obtain ⟨t, ht, he⟩ := List.mem_map.1 (List.mem_filter.1 hmem).1
    have hnl := (newline_iff (hkind t ((bodyOf_sublist after).subset ht))).2 he
    rw [bodyOf] at ht
    have hstays := List.mem_takeWhile_imp ht
    simp only [hnl, ne_eq, not_true_eq_false, decide_false, Bool.false_eq_true] at hstays
  obtain ⟨t, ht, hnl⟩ := h.ended
  cases hrest : (after.dropWhile (·.kind = .ws)).dropWhile (·.kind ≠ .newline) with
  | nil =>
    rw [hrest, List.append_nil] at hline
    rw [← hline] at hblanks
    rw [← hblanks] at ht
    rcases List.mem_append.1 ht with ht | ht
    · have hstays := List.mem_takeWhile_imp ht
      simp only [hnl, reduceCtorEq, decide_false, Bool.false_eq_true] at hstays
    · have hstays := List.mem_takeWhile_imp ht
      simp only [hnl, ne_eq, not_true_eq_false, decide_false, Bool.false_eq_true] at hstays
  | cons u rest =>
    rw [hrest] at hline
    have hsplit : after = after.takeWhile (·.kind = .ws) ++ (bodyOf after ++ u :: rest) := by
      rw [bodyOf, hline, hblanks]
    have hu : u.str = newlineWord := by
      have hmem : u ∈ after := by
        rw [hsplit]
        exact List.mem_append_right _ (List.mem_append_right _ List.mem_cons_self)
      have hstop := List.head_dropWhile_not (fun t : Tok => decide (t.kind ≠ .newline))
        (l := after.dropWhile (·.kind = .ws)) (by rw [hrest]; exact List.cons_ne_nil _ _)
      simp only [hrest, List.head_cons, decide_eq_false_iff_not, ne_eq, not_not] at hstop
      exact (newline_iff (hkind u hmem)).1 hstop
    refine ⟨inkOf (wordsOf rest), ?_, hbody⟩
    have hmap : wordsOf after = wordsOf (after.takeWhile (·.kind = .ws)) ++
        (wordsOf (bodyOf after) ++ newlineWord :: wordsOf rest) := by
      conv_lhs => rw [hsplit]
      rw [wordsOf, List.map_append, List.map_append, List.map_cons, hu]
      rfl
    rw [hmap, inkOf_append, hblank, List.nil_append, inkOf_append, inkOf_cons (by decide)]

/-- The words of the file, but for the blanks, as a text in which a name is replaced. -/
theorem Chosen.replacesLine (hgood : Replaceable idx data)
    (h : Chosen idx (fileToks data) before name after) : ∃ b a v r, ReplacesLine newlineWord
      (inkOf (wordsOf (fileToks data)))
      (inkOf (wordsOf (fileToks (replacedWords before name after).flatten))) b a v r := by
  obtain ⟨hfresh, hapart⟩ := hgood.separates before name after h
  obtain ⟨rest, hafter, hline⟩ := h.inkOf_after hgood.plain
  have hname : name.str ∉ blankWords := by
    refine fun hmem => h.not_blank ((ws_iff (hgood.plain.kind ?_)).2 hmem)
    rw [h.split]
    exact List.mem_append_right _ List.mem_cons_self
  have hp : decide (name.str ∉ blankWords) = true := decide_eq_true hname
  have hwords : wordsOf (fileToks data) = wordsOf before ++ name.str :: wordsOf after := by
    rw [h.split, wordsOf, List.map_append, List.map_cons]
    rfl
  refine ⟨inkOf (wordsOf before), name.str, inkOf (wordsOf (bodyOf after)), rest, ?_, hline, ?_,
    ?_, ?_⟩
  · rw [hwords, inkOf_append, inkOf_cons hname, hafter]
  · exact fun hmem => hfresh (List.mem_filter.1 hmem).1
  · have hcount : (inkOf (wordsOf (fileToks data))).count name.str =
        (wordsOf (fileToks data)).count name.str :=
      List.count_filter (p := fun w => decide (w ∉ blankWords)) hp
    have hused : 1 < (wordsOf (fileToks data)).count name.str := h.used
    rw [← hcount, lawful_beq_subsingleton List.instBEq instBEqOfDecidableEq] at hused
    exact hused
  · rw [hapart, replacedWords, inkOf_append, inkOf_cons hname, ← hafter]
    rw [inkOf, filter_replaceAll hp, inkOf, filter_replaceAll hp]
    rfl

/-- A chain of successful transforms, each with an index that follows from how the tests of the
variants before it have ended. -/
def DefineChain (idx : ℕ → Int) (files : ℕ → Bytes) : Prop :=
  ∀ n, clexDefine (idx n) (.file (files n)) = some ⟨51, files (n + 1)⟩

theorem clexDefine_file (idx : Int) (data : Bytes) :
    clexDefine idx (.file data) = define idx (fileToks data) := by
  obtain ⟨s, s', hs, hlex, htoks⟩ := yylex_file data
  rw [clexDefine, hs]
  simp only [hlex, Option.bind_some, htoks]

theorem clexDefine_isSome : (clexDefine idx (.file data)).isSome ↔
    StaysInside idx (fileToks data) (fileToks data) := by
  rw [clexDefine_file, define, defineLoop_isSome, sub_zero, List.drop_zero]

theorem no_define_chain (hgood : ∀ n, Replaceable (idx n) (files n)) :
    ¬ DefineChain idx files := by
  intro hchain
  refine @no_endless_line_replacement _ _ newlineWord
    (fun n => inkOf (wordsOf (fileToks (files n)))) fun n => ?_
  have hstep := hchain n
  rw [clexDefine_file] at hstep
  obtain ⟨before, name, after, hchosen, hout⟩ := define_ok hstep
  rw [hout]
  exact hchosen.replacesLine (hgood n)

/-- The pass that tries the definitions one after another. -/
def definePass : SerialPass Nat Bytes := clexPass fun idx => clexDefine idx

/-- A variant of a file in which a definition can be replaced for good. -/
def DefineStep (d' d : Bytes) : Prop :=
  ∃ idx : Int, Replaceable idx d ∧ clexDefine idx (.file d) = some ⟨51, d'⟩

theorem defineStep_wf : WellFounded DefineStep := by
  rw [wellFounded_iff_isEmpty_descending_chain]
  refine ⟨fun chain => ?_⟩
  obtain ⟨files, hfiles⟩ := chain
  choose idx hgood hstep using hfiles
  exact no_define_chain hgood hstep

theorem defineLoop_code {toks : List Tok} (h : defineLoop idx toks i found = some out) :
    out.code = 51 ∨ out.code = 71 := by
  induction i, found using defineLoop.induct idx toks with
  | case1 i found hend =>
    rw [defineLoop_end hend] at h
    obtain rfl := Option.some.inj h
    exact .inr rfl
  | case2 i found hi hr =>
    rw [defineLoop_round (Nat.lt_of_not_le hi), hr] at h
    cases h
  | case3 i found hi j hr ih =>
    rw [defineLoop_round (Nat.lt_of_not_le hi), hr] at h
    exact ih h
  | case4 i hi j hr =>
    rw [defineLoop_round (Nat.lt_of_not_le hi), hr, Option.bind_some] at h
    simp only [if_true] at h
    obtain ⟨printed, -, rfl⟩ := Option.map_eq_some_iff.1 h
    exact .inl rfl
  | case5 i found hi j hr hidx ih =>
    rw [defineLoop_round (Nat.lt_of_not_le hi), hr, Option.bind_some] at h
    simp only [hidx, if_false] at h
    exact ih h

theorem length_le_chunks (cs : List Chunk) : cs.length ≤ (cs.flatMap Chunk.toks).length := by
  induction cs with
  | nil => exact Nat.le_refl 0
  | cons c cs ih =>
    have hpos := c.toks_pos
    rw [List.length_cons, List.flatMap_cons, List.length_append]
    omega

theorem Chosen.index_lt {toks before after : List Tok} (h : Chosen idx toks before name after) :
    idx < toks.length := by
  obtain ⟨cs, c, -, -, -, hsplit, hcount⟩ := h.counted
  have hlen := congrArg List.length hsplit
  have hall := congrArg List.length h.split
  have hle := length_le_chunks cs
  have hpos := c.toks_pos
  have hused := List.countP_le_length (p := (Chunk.Defines toks ·)) (l := cs)
  simp only [List.length_append, List.length_cons, List.length_nil] at hlen hall
  omega

theorem definePass_transform (h : clexDefine (idx : ℕ) (.file data) = some out) :
    definePass.transform idx data = if out.code = 51 then (.ok, out.stdout) else (.stop, data) := by
  have hcode : out.code = 51 ∨ out.code = 71 := by
    rw [clexDefine_file] at h
    exact defineLoop_code h
  obtain ⟨code, stdout⟩ := out
  rcases hcode with rfl | rfl
  · rw [if_pos rfl]
    simp only [definePass, clexPass, h]
  · rw [if_neg fun he => absurd he (by decide : ¬ 71 = 51)]
    simp only [definePass, clexPass, h]

/-- What the pass may meet: no read behind the list, and variants as above. -/
structure SoundStep (c : ℕ × Bytes) : Prop where
  inside : (clexDefine c.1 (.file c.2)).isSome
  replaceable : ∀ out, clexDefine c.1 (.file c.2) = some ⟨51, out⟩ → Replaceable c.1 c.2

theorem definePass_step (hsound : SoundStep c) (h : definePass.step success c = some c') :
    Prod.Lex DefineStep (· < · : ℕ → ℕ → Prop) (c'.2, (fileToks c'.2).length - c'.1)
      (c.2, (fileToks c.2).length - c.1) := by
  obtain ⟨out, hout⟩ := Option.isSome_iff_exists.1 hsound.inside
  have htransform := definePass_transform hout
  obtain ⟨code, stdout⟩ := out
  by_cases hcode : code = 51
  · subst hcode
    rw [if_pos rfl] at htransform
    rcases SerialPass.step_cases h with ⟨-, hadvance, hsame⟩ | ⟨hok, -, -⟩
    · have hdefine := hout
      rw [clexDefine_file] at hdefine
      obtain ⟨before, name, after, hchosen, -⟩ := define_ok hdefine
      have hlt := hchosen.index_lt
      have hnext : c.1 + 1 = c'.1 := Option.some.inj hadvance
      rw [hsame]
      refine Prod.Lex.right _ ?_
      omega
    · rw [htransform] at hok
      obtain rfl : stdout = c'.2 := (Prod.mk.inj hok).2
      exact Prod.Lex.left _ _ ⟨c.1, hsound.replaceable _ hout, hout⟩
  · rw [if_neg hcode] at htransform
    rcases SerialPass.step_cases h with ⟨hstop, -, -⟩ | ⟨hok, -, -⟩
    · rw [htransform] at hstop
      exact absurd rfl hstop
    · rw [htransform] at hok
      cases (Prod.mk.inj hok).1

/-- What `define` replaces, and that it comes to an end. -/
theorem define_progress (outcomes : ℕ → Bool) (c : ℕ × Bytes) :
    (∀ idx data out, Plain data → clexDefine idx (.file data) = some ⟨51, out⟩ →
      ∃ before name after, Chosen idx (fileToks data) before name after ∧
        data = (wordsOf (before ++ name :: after)).flatten ∧
        out = (replacedWords before name after).flatten ∧
        (wordsOf (fileToks out) = replacedWords before name after →
          (Used (fileToks out) name.str ↔ name.str ∈ wordsOf (bodyOf after)))) ∧
    (∀ idx files, (∀ n, Replaceable (idx n) (files n)) → ¬ DefineChain idx files) ∧
    ((∀ n idx data, definePass.run outcomes c n = some (idx, data) →
        StaysInside idx (fileToks data) (fileToks data) ∧
        ∀ out, clexDefine idx (.file data) = some ⟨51, out⟩ → Replaceable idx data) →
      ∃ n, definePass.run outcomes c n = none) := by
  refine ⟨?_, fun idx files => no_define_chain, ?_⟩
  · intro idx data out hplain h
    rw [clexDefine_file] at h
    obtain ⟨before, name, after, hchosen, hout⟩ := define_ok h
    refine ⟨before, name, after, hchosen, ?_, hout, fun hwords => ?_⟩
    · rw [← hchosen.split]
      exact hplain.words.symm
    · have hused : Used (fileToks out) name.str ↔
          1 < (wordsOf (fileToks out)).count name.str := Iff.rfl
      rw [hused, hwords]
      exact used_replaced before name after
  · intro hrun
    have hwf := InvImage.wf (fun c : ℕ × Bytes => (c.2, (fileToks c.2).length - c.1))
      (WellFounded.prod_lex defineStep_wf Nat.lt_wfRel.wf)
    have hstep (success : Bool) (c c' : ℕ × Bytes) (hsound : SoundStep c)
        (h : definePass.step success c = some c') :
        InvImage (Prod.Lex DefineStep (· < · : ℕ → ℕ → Prop))
          (fun c => (c.2, (fileToks c.2).length - c.1)) c' c := definePass_step hsound h
    refine SerialPass.run_ends hwf hstep fun n c' hc' => ?_
    obtain ⟨hinside, hgood⟩ := hrun n c'.1 c'.2 hc'
    exact ⟨clexDefine_isSome.2 hinside, hgood⟩

/-- The tokens of a file that is written as its words. -/
def toksFrom (off : Nat) : List (TokKind × String) → List Tok
  | [] => []
  | (kind, w) :: rest =>
    tokAt .single off kind w.toUTF8.data.toList :: toksFrom (off + w.utf8ByteSize) rest

/-- The tokens of a line that defines `A`. -/
def lineToks (body : List (TokKind × String)) : List Tok :=
  toksFrom 0 ([(.other, "#"), (.ident, "define"), (.ws, " "), (.ident, "A")] ++ body ++
    [(.newline, "\n")])

def usedMacro : Bytes := "#define A B\nA\n".toUTF8.data.toList

def replacedMacro : Bytes := "#define A B\nB\n".toUTF8.data.toList

theorem fileToks_usedMacro : fileToks usedMacro =
    lineToks [(.ws, " "), (.ident, "B"), (.newline, "\n"), (.ident, "A")] := by decide +kernel

theorem fileToks_replacedMacro : fileToks replacedMacro =
    lineToks [(.ws, " "), (.ident, "B"), (.newline, "\n"), (.ident, "B")] := by decide +kernel

theorem define_usedMacro : clexDefine 0 (.file usedMacro) = some ⟨51, replacedMacro⟩ := by
  rw [clexDefine_file, fileToks_usedMacro]
  decide +kernel

theorem define_replacedMacro : clexDefine 0 (.file replacedMacro) = some ⟨71, []⟩ := by
  rw [clexDefine_file, fileToks_replacedMacro]
  decide +kernel

theorem plain_usedMacro : Plain usedMacro := ⟨by decide +kernel, by decide⟩

theorem chosen_usedMacro : Chosen 0 (fileToks usedMacro) ((fileToks usedMacro).take 3)
    ⟨[65], .ident, .single, -1, 1, 8⟩ ((fileToks usedMacro).drop 4) := by
  rw [fileToks_usedMacro]
  refine ⟨rfl, by decide, by decide, ?_, by decide⟩
  refine ⟨[], .definition ⟨[35], .other, .single, -1, 1, 0⟩ []
    ⟨defineWord, .ident, .single, -1, 6, 1⟩ [⟨[32], .ws, .single, -1, 1, 7⟩]
    ⟨[65], .ident, .single, -1, 1, 8⟩, ?_, ⟨?_, ?_, ?_, rfl, ?_, ?_⟩, ?_, ?_, rfl⟩
  · exact fun d hd => absurd hd List.not_mem_nil
  all_goals decide

theorem replaceable_usedMacro : Replaceable 0 usedMacro := by
  refine ⟨plain_usedMacro, fun before name after h => ?_⟩
  obtain ⟨rfl, rfl, rfl⟩ := h.unique chosen_usedMacro
  have hout : (replacedWords ((fileToks usedMacro).take 3) ⟨[65], .ident, .single, -1, 1, 8⟩
      ((fileToks usedMacro).drop 4)).flatten = replacedMacro := by
    rw [fileToks_usedMacro]
    rfl
  refine ⟨?_, ?_⟩
  · rw [fileToks_usedMacro]
    decide
  · rw [hout, fileToks_usedMacro, fileToks_replacedMacro]
    decide +kernel

theorem define_progress_used :
    (∃ before name after, Chosen 0 (fileToks usedMacro) before name after ∧
      usedMacro = (wordsOf (before ++ name :: after)).flatten ∧
      replacedMacro = (replacedWords before name after).flatten ∧
      (wordsOf (fileToks replacedMacro) = replacedWords before name after →
        (Used (fileToks replacedMacro) name.str ↔ name.str ∈ wordsOf (bodyOf after)))) ∧
    (¬ DefineChain (fun _ => 0) fun _ => usedMacro) ∧
    ∃ n, definePass.run (fun _ => true) (0, usedMacro) n = none := by
  obtain ⟨hstep, hchain, hrun⟩ := define_progress (fun _ => true) (0, usedMacro)
  refine ⟨hstep 0 usedMacro _ plain_usedMacro define_usedMacro,
    hchain _ _ fun _ => replaceable_usedMacro, hrun fun n idx data h => ?_⟩
  have hfirst : definePass.step true (0, usedMacro) = some (0, replacedMacro) := by
    rw [SerialPass.step, definePass_transform define_usedMacro]
    rfl
  have hsecond : definePass.step true (0, replacedMacro) = none := by
    rw [SerialPass.step, definePass_transform define_replacedMacro]
    rfl
  cases n with
  | zero =>
    obtain ⟨rfl, rfl⟩ := Prod.mk.inj (Option.some.inj h)
    exact ⟨clexDefine_isSome.1 (Option.isSome_of_eq_some define_usedMacro),
      fun _ _ => replaceable_usedMacro⟩
  | succ n =>
    rw [SerialPass.run, hfirst, Option.bind_some] at h
    cases n with
    | zero =>
      obtain ⟨rfl, rfl⟩ := Prod.mk.inj (Option.some.inj h)
      refine ⟨clexDefine_isSome.1 (Option.isSome_of_eq_some define_replacedMacro), ?_⟩
      intro out hout
      cases define_replacedMacro.symm.trans hout
    | succ n =>
      rw [SerialPass.run, hsecond, Option.bind_none] at h
      cases h

/-- Macros that stand in their own bodies. -/
def selfMacro : Bytes := "#define A A\n".toUTF8.data.toList

def growingMacro : Bytes := "#define A A A\n".toUTF8.data.toList

/-- They are used afterwards too: the file has grown, or it is what it was. -/
theorem define_self :
    (∃ out, clexDefine 0 (.file growingMacro) = some ⟨51, out⟩ ∧
      Used (fileToks out) "A".toUTF8.data.toList ∧ growingMacro.length < out.length) ∧
    clexDefine 0 (.file selfMacro) = some ⟨51, selfMacro⟩ ∧
      DefineChain (fun _ => 0) fun _ => selfMacro := by
  have hself : fileToks selfMacro = lineToks [(.ws, " "), (.ident, "A")] := by decide +kernel
  have hgrowing : fileToks growingMacro =
      lineToks [(.ws, " "), (.ident, "A"), (.ws, " "), (.ident, "A")] := by decide +kernel
  have hsame : clexDefine 0 (.file selfMacro) = some ⟨51, selfMacro⟩ := by
    rw [clexDefine_file, hself]
    decide +kernel
  refine ⟨⟨"#define A A A A A\n".toUTF8.data.toList, ?_, by decide +kernel, by decide⟩, hsame,
    fun _ => hsame⟩
  rw [clexDefine_file, hgrowing]
  decide +kernel

end Cvise
